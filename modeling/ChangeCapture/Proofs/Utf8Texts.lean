import ChangeCapture.Text.Utf8

/-! Text in bytes. The forms of a character are what is read as one, and each character is written in one
of them; so a text is decoded from its own bytes and from no others. -/
namespace ChangeCapture.Text.Utf8

/-- The forms of a character, and its number. A second byte is bounded where the character would have a
shorter form or be none. -/
inductive SpellsChar : List UInt8 → Nat → Prop where
  | one {a : UInt8} : a.toNat < 0x80 → SpellsChar [a] a.toNat
  | two {a b : UInt8} : 0xC2 ≤ a.toNat ∧ a.toNat ≤ 0xDF → isTail b →
      SpellsChar [a, b] (a.toNat % 32 * 64 + low b)
  | three {a b c : UInt8} : 0xE0 ≤ a.toNat ∧ a.toNat ≤ 0xEF → isSecondOfThree a b → isTail c →
      SpellsChar [a, b, c] ((a.toNat % 16 * 64 + low b) * 64 + low c)
  | four {a b c d : UInt8} : 0xF0 ≤ a.toNat ∧ a.toNat ≤ 0xF4 → isSecondOfFour a b → isTail c →
      isTail d → SpellsChar [a, b, c, d] (((a.toNat % 8 * 64 + low b) * 64 + low c) * 64 + low d)

variable {a b : UInt8} {index n : Nat} {bytes : List UInt8} {chars : List Char}

theorem isTail_iff : isTail b ↔ low b < 64 ∧ b.toNat = low b + 0x80 := by
  simp [isTail, low, UInt8.le_iff_toNat_le]
  omega

theorem bounded_iff {x y least most : UInt8} (apart : x ≠ y) (low : 0x80 ≤ least) (high : most ≤ 0xBF) :
    (if a = x then least ≤ b && b ≤ 0xBF else if a = y then 0x80 ≤ b && b ≤ most else isTail b) ↔
      isTail b ∧ (a = x → least ≤ b) ∧ (a = y → b ≤ most) := by
  simp only [isTail]
  split
  next first =>
    simp [first, apart, UInt8.le_iff_toNat_le] at *
    omega
  next =>
    split
    next second =>
      simp [second, apart.symm, UInt8.le_iff_toNat_le] at *
      omega
    next neither other => simp [neither, other]

theorem isSecondOfThree_iff : isSecondOfThree a b ↔
    isTail b ∧ (a.toNat = 0xE0 → 0xA0 ≤ b.toNat) ∧ (a.toNat = 0xED → b.toNat ≤ 0x9F) := by
  have bounded := @bounded_iff a b 0xE0 0xED 0xA0 0x9F (by decide) (by decide) (by decide)
  simpa [isSecondOfThree, ← UInt8.toNat_inj, UInt8.le_iff_toNat_le] using bounded

theorem isSecondOfFour_iff : isSecondOfFour a b ↔
    isTail b ∧ (a.toNat = 0xF0 → 0x90 ≤ b.toNat) ∧ (a.toNat = 0xF4 → b.toNat ≤ 0x8F) := by
  have bounded := @bounded_iff a b 0xF0 0xF4 0x90 0x8F (by decide) (by decide) (by decide)
  simpa [isSecondOfFour, ← UInt8.toNat_inj, UInt8.le_iff_toNat_le] using bounded

/-- A character is read from any form of it, whatever follows. -/
theorem decodeFrom_append (spells : SpellsChar bytes n) (index : Nat) (rest : List UInt8) :
    decodeFrom index (bytes ++ rest) =
      (do return Char.ofNat n :: (← decodeFrom (index + bytes.length) rest)) := by
  rw [decodeFrom.eq_def]
  cases spells with
  | one lead => simp [UInt8.lt_iff_toNat_lt, lead]
  | @two a b lead tail =>
    have above : ¬ a.toNat < 0x80 := by omega
    simp [UInt8.lt_iff_toNat_lt, UInt8.le_iff_toNat_le, above, lead, tail]
  | @three a b c lead second tail =>
    have above : ¬ a.toNat < 0x80 ∧ ¬ a.toNat ≤ 0xDF := by omega
    simp [UInt8.lt_iff_toNat_lt, UInt8.le_iff_toNat_le, above, lead, second, tail]
  | @four a b c d lead second third tail =>
    have above : ¬ a.toNat < 0x80 ∧ ¬ a.toNat ≤ 0xDF ∧ ¬ a.toNat ≤ 0xEF := by omega
    simp [UInt8.lt_iff_toNat_lt, UInt8.le_iff_toNat_le, above, lead, second, third, tail]

theorem SpellsChar.isValidChar (spells : SpellsChar bytes n) : n.isValidChar := by
  simp only [Nat.isValidChar]
  cases spells with
  | one lead => omega
  | two lead tail =>
    rw [isTail_iff] at tail
    omega
  | three lead second tail =>
    rw [isSecondOfThree_iff, isTail_iff] at second
    rw [isTail_iff] at tail
    omega
  | four lead second third tail =>
    rw [isSecondOfFour_iff, isTail_iff] at second
    rw [isTail_iff] at third tail
    omega

/-- A character has no other form than the one it is written in. -/
theorem utf8EncodeChar_ofNat (spells : SpellsChar bytes n) :
    String.utf8EncodeChar (Char.ofNat n) = bytes := by
  have number : (Char.ofNat n).val.toNat = n := by
    rw [Char.ofNat, dif_pos spells.isValidChar]
    rfl
  rw [String.utf8EncodeChar.eq_1, number]
  cases spells with
  | one lead => simp [Nat.le_of_lt_succ lead]
  | two lead tail =>
    rw [isTail_iff] at tail
    rw [if_neg (by omega), if_pos (by omega)]
    simp [← UInt8.toNat_inj]
    omega
  | three lead second tail =>
    rw [isSecondOfThree_iff, isTail_iff] at second
    rw [isTail_iff] at tail
    rw [if_neg (by omega), if_neg (by omega), if_pos (by omega)]
    simp [← UInt8.toNat_inj]
    omega
  | four lead second third tail =>
    rw [isSecondOfFour_iff, isTail_iff] at second
    rw [isTail_iff] at third tail
    rw [if_neg (by omega), if_neg (by omega), if_neg (by omega)]
    simp [← UInt8.toNat_inj]
    omega

theorem low_ofNat (n : Nat) : low (UInt8.ofNat (n % 64 + 128)) = n % 64 := by
  simp [low]
  omega

theorem toNat_ofNat (n : Nat) : (UInt8.ofNat (n % 64 + 128)).toNat = n % 64 + 128 := by
  simp
  omega

theorem isTail_ofNat (n : Nat) : isTail (UInt8.ofNat (n % 64 + 128)) := by
  rw [isTail_iff, low_ofNat, toNat_ofNat]
  omega

theorem spellsChar_utf8EncodeChar (ch : Char) :
    SpellsChar (String.utf8EncodeChar ch) ch.toNat := by
  have valid : ch.toNat < 0xD800 ∨ 0xDFFF < ch.toNat ∧ ch.toNat < 0x110000 := ch.valid
  have number : ch.val.toNat = ch.toNat := rfl
  rw [String.utf8EncodeChar.eq_1, number]
  split
  next =>
    have lead : (UInt8.ofNat ch.toNat).toNat = ch.toNat := by simp; omega
    have spells : SpellsChar [UInt8.ofNat ch.toNat] _ := .one (by omega)
    rwa [lead] at spells
  next =>
  split
  next =>
    have lead : (UInt8.ofNat (ch.toNat / 64 % 32 + 192)).toNat = ch.toNat / 64 + 192 := by
      simp; omega
    have same : (ch.toNat / 64 + 192) % 32 * 64 + ch.toNat % 64 = ch.toNat := by omega
    have spells := SpellsChar.two (a := UInt8.ofNat (ch.toNat / 64 % 32 + 192)) (by omega)
      (isTail_ofNat ch.toNat)
    rwa [lead, low_ofNat, same] at spells
  next =>
  split
  next =>
    have lead : (UInt8.ofNat (ch.toNat / 4096 % 16 + 224)).toNat = ch.toNat / 4096 + 224 := by
      simp; omega
    have same : ((ch.toNat / 4096 + 224) % 16 * 64 + ch.toNat / 64 % 64) * 64 + ch.toNat % 64 =
        ch.toNat := by omega
    have second : isSecondOfThree (UInt8.ofNat (ch.toNat / 4096 % 16 + 224))
        (UInt8.ofNat (ch.toNat / 64 % 64 + 128)) := by
      rw [isSecondOfThree_iff, lead, toNat_ofNat]
      exact ⟨isTail_ofNat _, by omega, by omega⟩
    have spells := SpellsChar.three (by omega) second (isTail_ofNat ch.toNat)
    rwa [lead, low_ofNat, low_ofNat, same] at spells
  next =>
    have lead : (UInt8.ofNat (ch.toNat / 262144 % 8 + 240)).toNat = ch.toNat / 262144 + 240 := by
      simp; omega
    have same : (((ch.toNat / 262144 + 240) % 8 * 64 + ch.toNat / 4096 % 64) * 64 +
        ch.toNat / 64 % 64) * 64 + ch.toNat % 64 = ch.toNat := by omega
    have second : isSecondOfFour (UInt8.ofNat (ch.toNat / 262144 % 8 + 240))
        (UInt8.ofNat (ch.toNat / 4096 % 64 + 128)) := by
      rw [isSecondOfFour_iff, lead, toNat_ofNat]
      exact ⟨isTail_ofNat _, by omega, by omega⟩
    have spells := SpellsChar.four (by omega) second (isTail_ofNat (ch.toNat / 64))
      (isTail_ofNat ch.toNat)
    rwa [lead, low_ofNat, low_ofNat, low_ofNat, same] at spells

theorem decodeFrom_flatMap (chars : List Char) (index : Nat) :
    decodeFrom index (chars.flatMap String.utf8EncodeChar) = .ok chars := by
  induction chars generalizing index with
  | nil => rfl
  | cons ch chars ih =>
    rw [List.flatMap_cons, decodeFrom_append (spellsChar_utf8EncodeChar ch), ih, Char.ofNat_toNat]
    rfl

theorem SpellsChar.flatMap_cons {rest : List UInt8} {decoded : Except Fault (List Char)}
    (spells : SpellsChar bytes n)
    (others : ∀ {chars}, decoded = .ok chars → rest = chars.flatMap String.utf8EncodeChar)
    (ok : (do return Char.ofNat n :: (← decoded)) = .ok chars) :
    bytes ++ rest = chars.flatMap String.utf8EncodeChar := by
  cases decoded with
  | error fault => cases ok
  | ok chars =>
    cases ok
    rw [List.flatMap_cons, utf8EncodeChar_ofNat spells, others rfl]

theorem eq_flatMap_of_decodeFrom (ok : decodeFrom index bytes = .ok chars) :
    bytes = chars.flatMap String.utf8EncodeChar := by
  fun_induction decodeFrom index bytes generalizing chars with
  | case1 =>
    cases ok
    rfl
  | case2 index a rest lead ih =>
    have spells : SpellsChar [a] _ := .one (by simpa [UInt8.lt_iff_toNat_lt] using lead)
    exact spells.flatMap_cons ih ok
  | case5 index a _ lead b rest tail ih =>
    have spells : SpellsChar [a, b] _ :=
      .two (by simpa [UInt8.le_iff_toNat_le] using lead) (by simpa using tail)
    exact spells.flatMap_cons ih ok
  | case10 index a _ _ lead b second c rest tail ih =>
    have spells : SpellsChar [a, b, c] _ :=
      .three (by simpa [UInt8.le_iff_toNat_le] using lead) (by simpa using second)
        (by simpa using tail)
    exact spells.flatMap_cons ih ok
  | case17 index a _ _ _ lead b second c third d rest tail ih =>
    have spells : SpellsChar [a, b, c, d] _ :=
      .four (by simpa [UInt8.le_iff_toNat_le] using lead) (by simpa using second)
        (by simpa using third) (by simpa using tail)
    exact spells.flatMap_cons ih ok
  | _ => cases ok

/-- The bytes of a text. -/
def encode (text : String) : List UInt8 := text.toUTF8.data.toList

theorem encode_eq (text : String) : encode text = text.toList.flatMap String.utf8EncodeChar := by
  rw [encode, String.toUTF8_eq_toByteArray, ← String.utf8Encode_toList]
  simp [List.utf8Encode]

/-- Exactly the bytes of a text are decoded as that text. -/
theorem decode_eq_ok_iff {text : String} : decode bytes = .ok text ↔ bytes = encode text := by
  rw [encode_eq, decode]
  constructor
  · intro ok
    cases decoded : decodeFrom 0 bytes with
    | error fault => simp [decoded, Except.map] at ok
    | ok chars =>
      obtain rfl : String.ofList chars = text := by simpa [decoded, Except.map] using ok
      simpa using eq_flatMap_of_decodeFrom decoded
  · rintro rfl
    simp [decodeFrom_flatMap, Except.map]

end ChangeCapture.Text.Utf8
