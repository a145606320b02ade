import ChangeCapture.Image
import Mathlib

/-! Text of the national character set. Exactly the bytes in which every surrogate has its other half at
its side are decoded, each of them to the one text that is written as these bytes. -/
namespace ChangeCapture

namespace Text.Utf16

/-- Whether a unit at place `i` is half of a pair only if the other half stands next to it. -/
def PairedAt (us : List Nat) (i u : Nat) : Prop :=
  (isHigh u → ∃ v, us[i + 1]? = some v ∧ isLow v) ∧
    (isLow u → ∃ j v, i = j + 1 ∧ us[j]? = some v ∧ isHigh v)

def Paired (us : List Nat) : Prop := ∀ i u, us[i]? = some u → PairedAt us i u

/-- The first half of a pair that stands alone is `u`, at place `i`. -/
structure FirstUnpaired (us : List Nat) (i u : Nat) : Prop where
  found : us[i]? = some u
  unpaired : ¬ PairedAt us i u
  first : ∀ j < i, ∀ v, us[j]? = some v → PairedAt us j v

theorem not_isHigh_of_isLow {u : Nat} (low : isLow u) : ¬ isHigh u := by
  simp only [isLow, isHigh, Bool.and_eq_true, decide_eq_true_eq] at low ⊢
  omega

variable {us front : List Nat} {i u v w : Nat}

theorem FirstUnpaired.not_paired (first : FirstUnpaired us i u) : ¬ Paired us :=
  fun paired => first.unpaired (paired i u first.found)

/-- Units that are paired among themselves, so that none of what follows is paired with one of them. -/
structure Complete (front us : List Nat) : Prop where
  inside : ∀ i u, front[i]? = some u → PairedAt (front ++ us) i u
  behind : ∀ i u, PairedAt (front ++ us) (front.length + i) u ↔ PairedAt us i u

namespace Complete

theorem plain (high : ¬ isHigh w) (low : ¬ isLow w) : Complete [w] us := by
  constructor
  · intro i u found
    obtain ⟨rfl, rfl⟩ : i = 0 ∧ w = u := by simpa [List.getElem?_singleton] using found
    simp [PairedAt, high, low]
  · intro i u
    cases i with
    | zero => simp [PairedAt, high]
    | succ i => simp [PairedAt, Nat.add_comm 1]

theorem pair (high : isHigh w) (low : isLow v) : Complete [w, v] us := by
  have low' : ¬ isLow w := fun low' => not_isHigh_of_isLow low' high
  have high' : ¬ isHigh v := not_isHigh_of_isLow low
  constructor
  · intro i u found
    match i with
    | 0 =>
      cases found
      simp [PairedAt, low, low']
    | 1 =>
      cases found
      simp [PairedAt, high, high']
    | i + 2 => simp at found
  · intro i u
    cases i with
    | zero => simp [PairedAt, high']
    | succ i => simp [PairedAt, Nat.add_comm 2, Nat.add_right_comm]

theorem paired (complete : Complete front us) (rest : Paired us) : Paired (front ++ us) := by
  intro i u found
  rw [List.getElem?_append] at found
  split at found
  next => exact complete.inside i u found
  next beyond =>
    have := (complete.behind _ u).mpr (rest _ u found)
    rwa [Nat.add_sub_cancel' (by omega)] at this

theorem firstUnpaired (complete : Complete front us) (rest : FirstUnpaired us i u) :
    FirstUnpaired (front ++ us) (front.length + i) u := by
  constructor
  · rw [List.getElem?_append_right (by omega), Nat.add_sub_cancel_left]
    exact rest.found
  · rw [complete.behind]
    exact rest.unpaired
  · intro j before v found
    rw [List.getElem?_append] at found
    split at found
    next => exact complete.inside j v found
    next beyond =>
      have := (complete.behind _ v).mpr (rest.first _ (by omega) v found)
      rwa [Nat.add_sub_cancel' (by omega)] at this

end Complete

theorem encodeChar_ofNat (small : w < 0x10000) (high : ¬ isHigh w) (low : ¬ isLow w) :
    encodeChar (Char.ofNat w) = [w] := by
  have valid : (Char.ofNat w).toNat = w := by
    rw [Char.toNat_ofNat, if_pos]
    simp only [isHigh, isLow, Bool.and_eq_true, decide_eq_true_eq, Nat.isValidChar] at high low ⊢
    omega
  simp [encodeChar, valid, small]

theorem encodeChar_pair (high : isHigh w) (low : isLow v) : encodeChar (pair w v) = [w, v] := by
  simp only [isHigh, isLow, Bool.and_eq_true, decide_eq_true_eq] at high low
  have valid : (pair w v).toNat = 0x10000 + (w - 0xD800) * 0x400 + (v - 0xDC00) := by
    rw [pair, Char.toNat_ofNat, if_pos]
    simp only [Nat.isValidChar]
    omega
  simp only [encodeChar, valid]
  rw [if_neg (by omega)]
  simp only [List.cons.injEq, and_true]
  omega

/-- The units of a character of its own, or of a pair, are read as that character. -/
theorem decodeUnits_encodeChar (c : Char) (us : List Nat) :
    decodeUnits (encodeChar c ++ us) = (do return c :: (← decodeUnits us)) := by
  have valid : c.toNat < 0xD800 ∨ 0xDFFF < c.toNat ∧ c.toNat < 0x110000 := c.valid
  unfold encodeChar
  split
  next small =>
    have high : isHigh c.toNat = false := by simp [isHigh]; omega
    have low : isLow c.toNat = false := by simp [isLow]; omega
    rw [List.singleton_append, decodeUnits.eq_def]
    simp [high, low]
  next large =>
    have high : isHigh (0xD800 + (c.toNat - 0x10000) / 0x400) := by simp [isHigh]; omega
    have low : isLow (0xDC00 + (c.toNat - 0x10000) % 0x400) := by simp [isLow]; omega
    have whole : pair (0xD800 + (c.toNat - 0x10000) / 0x400)
        (0xDC00 + (c.toNat - 0x10000) % 0x400) = c := by
      refine Eq.trans ?_ c.ofNat_toNat
      apply congrArg Char.ofNat
      omega
    simp [decodeUnits, high, low, whole]

theorem decodeUnits_encode (cs : List Char) : decodeUnits (cs.flatMap encodeChar) = .ok cs := by
  induction cs with
  | nil => rfl
  | cons c cs ih => simp [decodeUnits_encodeChar, ih]

theorem lt_of_mem_encodeChar {c : Char} (member : u ∈ encodeChar c) : u < 0x10000 := by
  have valid : c.toNat < 0xD800 ∨ 0xDFFF < c.toNat ∧ c.toNat < 0x110000 := c.valid
  unfold encodeChar at member
  split at member <;> simp at member <;> omega

/-- What decoding says of units: which text they are, or which surrogate has no other half. -/
def Judged (us : List Nat) : Except Fault (List Char) → Prop
  | .ok cs => Paired us ∧ cs.flatMap encodeChar = us
  | .error (.unpaired u) => ∃ i, FirstUnpaired us i u
  | .error (.oddLength _) => False

theorem Judged.behind {c : Char} {result : Except Fault (List Char)} (judged : Judged us result)
    (written : encodeChar c = front) (complete : Complete front us) :
    Judged (front ++ us) (do return c :: (← result)) := by
  match result with
  | .ok cs =>
    obtain ⟨paired, rest⟩ := judged
    exact ⟨complete.paired paired, by simp [written, rest]⟩
  | .error (.unpaired u) =>
    obtain ⟨i, first⟩ := judged
    exact ⟨_, complete.firstUnpaired first⟩
  | .error (.oddLength _) => exact judged

theorem judged_decodeUnits (us : List Nat) (small : ∀ u ∈ us, u < 0x10000) :
    Judged us (decodeUnits us) := by
  fun_induction decodeUnits us with
  | case1 => exact ⟨nofun, rfl⟩
  | case2 u high => exact ⟨0, rfl, by simp [PairedAt, high], by simp⟩
  | case3 u high v rest low ih =>
    have judged := ih fun u member => small u (by simp [member])
    exact judged.behind (encodeChar_pair high low) (.pair high low)
  | case4 u high v rest low => exact ⟨0, rfl, by simp [PairedAt, high, low], by simp⟩
  | case5 u rest high low => exact ⟨0, rfl, by simp [PairedAt, low], by simp⟩
  | case6 u rest high low ih =>
    have judged := ih fun u member => small u (by simp [member])
    exact judged.behind (encodeChar_ofNat (small u (by simp)) high low) (.plain high low)

/-- A unit in two bytes, the high one first. -/
def bytesOfUnit (u : Nat) : List UInt8 := [.ofNat (u / 256), .ofNat (u % 256)]

theorem encode_eq (text : String) :
    encode text = (text.toList.flatMap encodeChar).flatMap bytesOfUnit := rfl

theorem units_lt (bytes : List UInt8) : ∀ u ∈ units bytes, u < 0x10000 := by
  fun_induction units bytes with
  | case1 high low rest ih =>
    have := high.toNat_lt
    have := low.toNat_lt
    intro u member
    rcases List.mem_cons.mp member with rfl | member
    · omega
    · exact ih u member
  | case2 => nofun

theorem flatMap_units {bytes : List UInt8} (even : bytes.length % 2 = 0) :
    (units bytes).flatMap bytesOfUnit = bytes := by
  fun_induction units bytes with
  | case1 high low rest ih =>
    have rest := ih (by simp at even; omega)
    have := low.toNat_lt
    have first : (256 * high.toNat + low.toNat) / 256 = high.toNat := by omega
    have second : (256 * high.toNat + low.toNat) % 256 = low.toNat := by omega
    simp [bytesOfUnit, rest, first, second]
  | case2 bytes short =>
    match bytes with
    | [] => rfl
    | [b] => simp at even
    | high :: low :: rest => exact (short high low rest rfl).elim

theorem units_flatMap (small : ∀ u ∈ us, u < 0x10000) : units (us.flatMap bytesOfUnit) = us := by
  induction us with
  | nil => rfl
  | cons u us ih =>
    have := small u (by simp)
    have rest := ih fun v member => small v (by simp [member])
    simp only [List.flatMap_cons, bytesOfUnit, List.cons_append, List.nil_append, units,
      UInt8.toNat_ofNat', List.cons.injEq]
    exact ⟨by omega, rest⟩

theorem length_flatMap_bytesOfUnit (us : List Nat) :
    (us.flatMap bytesOfUnit).length = 2 * us.length := by
  induction us with
  | nil => rfl
  | cons u us ih =>
    rw [List.flatMap_cons, List.length_append, ih]
    simp [bytesOfUnit]
    omega

theorem decode_encode (text : String) : decode (encode text) = .ok text := by
  have small : ∀ u ∈ text.toList.flatMap encodeChar, u < 0x10000 := by
    intro u member
    obtain ⟨c, -, member⟩ := List.mem_flatMap.mp member
    exact lt_of_mem_encodeChar member
  have even : (encode text).length % 2 = 0 := by
    rw [encode_eq, length_flatMap_bytesOfUnit]
    omega
  have units : units (encode text) = text.toList.flatMap encodeChar := units_flatMap small
  simp [decode, even, units, decodeUnits_encode, Except.map]

theorem decode_cases (bytes : List UInt8) :
    (bytes.length % 2 = 0 ∧ Paired (units bytes) ∧
      ∃ text, encode text = bytes ∧ decode bytes = .ok text) ∨
    (bytes.length % 2 = 1 ∧ decode bytes = .error (.oddLength bytes.length)) ∨
    (bytes.length % 2 = 0 ∧
      ∃ i u, FirstUnpaired (units bytes) i u ∧ decode bytes = .error (.unpaired u)) := by
  by_cases odd : bytes.length % 2 = 1
  · exact .inr (.inl ⟨odd, by simp [decode, odd]⟩)
  have even : bytes.length % 2 = 0 := by omega
  have whole : decode bytes = (decodeUnits (units bytes)).map String.ofList := by simp [decode, even]
  have judged := judged_decodeUnits (units bytes) (units_lt bytes)
  match decodeUnits (units bytes), judged, whole with
  | .ok cs, ⟨paired, written⟩, whole =>
    refine .inl ⟨even, paired, String.ofList cs, ?_, whole⟩
    simp [encode_eq, written, flatMap_units even]
  | .error (.unpaired u), ⟨i, first⟩, whole => exact .inr (.inr ⟨even, i, u, first, whole⟩)

end Text.Utf16

namespace Image

open Text.Utf16

variable {c : Column}

theorem decode_wide (wide : c.dataType.isWide) (bytes : List UInt8) :
    decode c bytes = (wideText bytes).mapError (.invalidValue c.name c.typeSpec) := by
  simp only [DataType.isWide, Bool.or_eq_true, decide_eq_true_eq] at wide
  rcases wide with (type | type) | type <;> simp only [decode, type] <;> cases wideText bytes <;> rfl

theorem decode_wide_cases (wide : c.dataType.isWide) (bytes : List UInt8) :
    (bytes.length % 2 = 0 ∧ Paired (units bytes) ∧
      ∃ text, encode text = bytes ∧ decode c bytes = .ok (.text text)) ∨
    (bytes.length % 2 = 1 ∧
      decode c bytes = .error (.invalidValue c.name c.typeSpec (.length .even bytes.length))) ∨
    (bytes.length % 2 = 0 ∧ ∃ i u, FirstUnpaired (units bytes) i u ∧
      decode c bytes = .error (.invalidValue c.name c.typeSpec (.utf16 u))) := by
  simp only [decode_wide wide, wideText]
  obtain ⟨even, paired, text, written, decoded⟩ | ⟨odd, refused⟩ | ⟨even, i, u, first, refused⟩ :=
    decode_cases bytes
  · exact .inl ⟨even, paired, text, written, by simp [decoded, Except.mapError]⟩
  · exact .inr (.inl ⟨odd, by simp [refused, Except.mapError]⟩)
  · exact .inr (.inr ⟨even, i, u, first, by simp [refused, Except.mapError]⟩)

/-- A value of the national character set is decoded if its bytes are even in number and every
surrogate in them has its other half at its side, and then to the one text that is written as these
bytes; every text is. An odd number of bytes is reported as such, otherwise the first lone surrogate. -/
theorem decode_wideTexts (c : Column) (wide : c.dataType.isWide) :
    (∀ bytes, (decode c bytes).isOk ↔ bytes.length % 2 = 0 ∧ Paired (units bytes)) ∧
    (∀ bytes v, decode c bytes = .ok v → ∃ text, v = .text text ∧ encode text = bytes) ∧
    (∀ text, decode c (encode text) = .ok (.text text)) ∧
    (∀ bytes, bytes.length % 2 = 1 →
      decode c bytes = .error (.invalidValue c.name c.typeSpec (.length .even bytes.length))) ∧
    ∀ bytes f, bytes.length % 2 = 0 → decode c bytes = .error f →
      ∃ i u, FirstUnpaired (units bytes) i u ∧ f = .invalidValue c.name c.typeSpec (.utf16 u) := by
  refine ⟨?_, ?_, ?_, ?_, ?_⟩
  · intro bytes
    obtain ⟨even, paired, text, -, decoded⟩ | ⟨odd, refused⟩ | ⟨even, i, u, first, refused⟩ :=
      decode_wide_cases wide bytes
    · simp [decoded, even, paired, Except.isOk, Except.toBool]
    · simp [refused, odd, Except.isOk, Except.toBool]
    · simp [refused, first.not_paired, Except.isOk, Except.toBool]
  · intro bytes v ok
    obtain ⟨-, -, text, written, decoded⟩ | ⟨-, refused⟩ | ⟨-, i, u, -, refused⟩ :=
      decode_wide_cases wide bytes
    · exact ⟨text, by simpa [ok] using decoded, written⟩
    · simp [refused] at ok
    · simp [refused] at ok
  · intro text
    simp [decode_wide wide, wideText, decode_encode, Except.mapError]
  · intro bytes odd
    obtain ⟨even, -⟩ | ⟨-, refused⟩ | ⟨even, -⟩ := decode_wide_cases wide bytes
    · omega
    · exact refused
    · omega
  · intro bytes f even error
    obtain ⟨-, -, text, -, decoded⟩ | ⟨odd, -⟩ | ⟨-, i, u, first, refused⟩ :=
      decode_wide_cases wide bytes
    · simp [decoded] at error
    · omega
    · exact ⟨i, u, first, by simpa [refused] using error.symm⟩

/-- A pair of surrogates, and its first half alone. -/
theorem decode_wideTexts_emoji :
    (Column.ofType 1 "N" .nclob).dataType.isWide ∧
      decode (.ofType 1 "N" .nclob) [0xD8, 0x3D, 0xDE, 0x00] = .ok (.text "😀") ∧
      ¬ (decode (.ofType 1 "N" .nclob) [0xD8, 0x3D]).isOk := by
  have wide : (Column.ofType 1 "N" .nclob).dataType.isWide := by decide
  obtain ⟨accepts, -, reads, -, -⟩ := decode_wideTexts (.ofType 1 "N" .nclob) wide
  refine ⟨wide, reads "😀", fun ok => ?_⟩
  obtain ⟨v, found, low⟩ := (((accepts _).mp ok).2 0 0xD83D rfl).1 rfl
  cases found

end Image

end ChangeCapture
