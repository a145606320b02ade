import ChangeCapture.Proofs.NumberImages

/-! The forms that a number is turned into: its text, whole numbers, fixed and wide decimals. All of
them are exact, and a form of limited size is given up just where the value has no such form. -/
namespace ChangeCapture

namespace Decimal.Wide

open Text

variable {cs : List Char} {n : Nat}

theorem magnitude?_numeral (numeral : natOfDigits? cs = some n) : magnitude? cs = some n := by
  have kept : cs.filter (· ≠ '_') = cs :=
    List.filter_eq_self.mpr fun c member =>
      decide_eq_true fun same => ne_of_numeral numeral (by decide) (same ▸ member)
  have first := head?_of_numeral numeral (c := '_') (by decide)
  unfold magnitude?
  extract_lets body
  have whole : body = cs := by
    unfold body
    split
    · exact absurd rfl (head?_of_numeral numeral (by decide))
    · rfl
  simp only [whole, if_neg first, kept, numeral]

theorem unscaled?_minus (negative : Bool) (numeral : natOfDigits? cs = some n) :
    unscaled? (minus negative ++ cs) = some (ExactNumber.signedValue negative n) := by
  have number := magnitude?_numeral numeral
  cases negative with
  | true =>
    have first := head?_of_numeral numeral (c := '+') (by decide)
    simp [minus, unscaled?, first, number, ExactNumber.signedValue]
  | false =>
    show unscaled? cs = some (n : ℤ)
    unfold unscaled?
    split
    · exact absurd rfl (head?_of_numeral numeral (by decide))
    · rw [number]
      rfl

/-- A decimal as it is written, with a point and an exponent or without. -/
structure Literal where
  negative : Bool
  whole : List Char
  places : Option (List Char)
  exponent : Option ℤ

namespace Literal

/-- The part in front of the exponent. -/
def base (l : Literal) : List Char :=
  minus l.negative ++ (l.whole ++ l.places.elim [] ('.' :: ·))

def chars (l : Literal) : List Char :=
  l.base ++ l.exponent.elim [] (fun k => 'e' :: (toString k).toList)

variable {l : Literal}

theorem mem_base {c : Char} (member : c ∈ l.base) :
    c = '-' ∨ c = '.' ∨ c ∈ l.whole ++ l.places.getD [] := by
  rcases List.mem_append.mp member with sign | member
  · exact .inl (eq_of_mem_minus sign)
  rcases List.mem_append.mp member with whole | member
  · exact .inr (.inr (List.mem_append_left _ whole))
  cases point : l.places with
  | none => simp [point] at member
  | some places =>
    rw [point] at member
    rcases List.mem_cons.mp member with rfl | member
    · exact .inr (.inl rfl)
    · exact .inr (.inr (List.mem_append_right _ member))

theorem cut_exponent (numeral : natOfDigits? (l.whole ++ l.places.getD []) = some n) :
    cut (fun c => c = 'e' || c = 'E') l.chars =
      (l.base, l.exponent.map fun k => (toString k).toList) := by
  have plain : ∀ c ∈ l.base, (decide (c = 'e') || decide (c = 'E')) = false := by
    intro c member
    rcases mem_base member with rfl | rfl | digit
    · rfl
    · rfl
    · refine Bool.eq_false_iff.mpr fun letter => ?_
      simp only [Bool.or_eq_true, decide_eq_true_eq] at letter
      rcases letter with rfl | rfl <;> exact ne_of_numeral numeral (by decide) digit
  unfold chars
  cases l.exponent with
  | none => simpa using cut_of_notMem plain
  | some k => exact cut_append plain (by decide)

theorem cut_places (numeral : natOfDigits? (l.whole ++ l.places.getD []) = some n) :
    cut (· = '.') l.base = (minus l.negative ++ l.whole, l.places) := by
  have plain : ∀ c ∈ minus l.negative ++ l.whole, decide (c = '.') = false := by
    refine fun c member => decide_eq_false ?_
    rintro rfl
    rcases List.mem_append.mp member with sign | digit
    · exact absurd (eq_of_mem_minus sign) (by decide)
    · exact ne_of_numeral numeral (by decide) (List.mem_append_left _ digit)
  unfold base
  rw [← List.append_assoc]
  cases l.places with
  | none => simpa using cut_of_notMem plain
  | some places => exact cut_append plain (by decide)

end Literal

theorem ofText?_literal {text : String} {l : Literal} (written : text.toList = l.chars)
    (numeral : natOfDigits? (l.whole ++ l.places.getD []) = some n)
    (fits : ∀ k ∈ l.exponent, -(2 ^ 63) ≤ k ∧ k < 2 ^ 63) :
    ofText? text = some ⟨ExactNumber.signedValue l.negative n,
      (l.places.getD []).length - l.exponent.getD 0⟩ := by
  have digits : unscaled? (minus l.negative ++ l.whole ++ l.places.getD []) =
      some (ExactNumber.signedValue l.negative n) := by
    rw [List.append_assoc]
    exact unscaled?_minus l.negative numeral
  unfold ofText?
  rw [written, Literal.cut_exponent numeral]
  dsimp only
  rw [Literal.cut_places numeral]
  dsimp only
  rw [digits]
  cases exponent : l.exponent with
  | none => rfl
  | some k =>
    have read : signed? 64 (toString k).toList = some k :=
      signed?_integer (fits k exponent).1 (fits k exponent).2
    rw [Option.map_some]
    split
    next none => cases none
    next rest plus =>
      exact absurd (congrArg List.head? (Option.some.inj plus)) (head?_integer k)
    next rest _ same =>
      cases same
      rw [read]
      rfl

end Decimal.Wide

namespace Decimal

open Text Wide

theorem toList_placed_whole {scale : ℤ} (whole : scale ≤ 0) (digits : String) :
    (placed digits scale).toList = digits.toList ++ List.replicate (-scale).toNat '0' := by
  simp [placed, whole, toList_pushn]

/-- What is written of a number is its digits, with as many of them behind a point as it has places,
or with zeros in place of those it lacks. -/
theorem literal_placed (negative : Bool) {digits : String} {n : Nat}
    (numeral : natOfDigits? digits.toList = some n) (scale : ℤ) : ∃ l : Literal,
    (signed negative (placed digits scale)).toList = l.chars ∧ l.negative = negative ∧
      l.exponent = none ∧ ((l.places.getD []).length : ℤ) = max scale 0 ∧
      natOfDigits? (l.whole ++ l.places.getD []) = some (n * 10 ^ (-scale).toNat) := by
  rw [toList_signed]
  by_cases integer : scale ≤ 0
  · let whole := digits.toList ++ List.replicate (-scale).toNat '0'
    refine ⟨⟨negative, whole, none, none⟩, ?_, rfl, rfl, ?_, ?_⟩
    · simp [toList_placed_whole integer, Literal.chars, Literal.base, whole]
    · simpa using integer
    · simpa [whole] using natOfDigits?_zeros numeral 0 (-scale).toNat
  · let shown := (padded (scale.toNat + 1) digits).toList
    have written : shown =
        List.replicate (scale.toNat + 1 - digits.length) '0' ++ digits.toList := toList_padded ..
    have room : scale.toNat < shown.length := by
      rw [written, List.length_append, List.length_replicate, String.length_toList]
      omega
    have whole : (-scale).toNat = 0 := by omega
    refine ⟨⟨negative, shown.take (shown.length - scale.toNat),
      some (shown.drop (shown.length - scale.toNat)), none⟩, ?_, rfl, rfl, ?_, ?_⟩
    · simp [placed, integer, Literal.chars, Literal.base, shown]
    · simp only [Option.getD_some, List.length_drop]
      omega
    · rw [Option.getD_some, List.take_append_drop, written, whole]
      simpa using natOfDigits?_zeros numeral _ 0

def Fixed.value (d : Fixed) : ℚ :=
  ExactNumber.signedValue d.negative d.mantissa * 10 ^ (-(d.scale : ℤ))

def Wide.value (d : Wide) : ℚ := d.unscaled * 10 ^ (-d.scale)

theorem Fixed.value_of_of? {negative : Bool} {mantissa scale : Nat} {d : Fixed}
    (fits : of? negative mantissa scale = some d) :
    d.value = ExactNumber.signedValue negative mantissa * 10 ^ (-(scale : ℤ)) := by
  unfold of? at fits
  split at fits
  · cases fits
    by_cases null : mantissa = 0 <;> simp [value, null]
  · cases fits

theorem Fixed.isSome_of? {negative : Bool} {mantissa scale : Nat} :
    (of? negative mantissa scale).isSome ↔ mantissa < 2 ^ 96 ∧ scale ≤ 28 := by
  unfold of?
  split <;> simp [*]

end Decimal

/-- The value of a field that holds a number without rounding. -/
def Field.number? : Field → Option ℚ
  | int value => some value
  | long value => some value
  | decimal value => some value.value
  | bigDecimal value => some value.value
  | _ => none

namespace ExactNumber

open Decimal Text

variable {n : ExactNumber}

/-- The value on the coarsest grid that has it and is not coarser than whole numbers. -/
theorem value_eq (n : ExactNumber) :
    n.value = (signedValue n.negative (n.coefficient * 10 ^ (-n.scale).toNat) : ℚ) *
      10 ^ (-(n.scale.toNat : ℤ)) := by
  have room : ((n.scale.toNat : ℤ) - n.scale).toNat = (-n.scale).toNat := by omega
  rw [← room]
  exact value_of_le (Int.self_le_toNat _)

theorem value_wide (n : ExactNumber) : n.wide.value = n.value := rfl

theorem ofText?_text (reduced : n.Reduced) :
    ∃ w, Wide.ofText? n.text = some w ∧ w.value = n.value := by
  obtain ⟨l, written, sign, plain, places, numeral⟩ :=
    literal_placed n.negative reduced.numeral n.scale
  refine ⟨_, Wide.ofText?_literal written numeral (by simp [plain]), ?_⟩
  have scale : max n.scale 0 - 0 = n.scale.toNat := by omega
  rw [Wide.value, sign, plain, places, Option.getD_none, scale, value_eq]

/-- The coefficient as it is written, of a whole number with its zeros. -/
def mantissaText (n : ExactNumber) : String :=
  if n.isInteger then n.text else signed n.negative n.digits

/-- The number with an exponent behind its digits. -/
def scientificText (n : ExactNumber) : String :=
  signed n.negative n.digits ++ "e" ++ toString (-n.scale)

theorem toList_mantissaText (n : ExactNumber) : n.mantissaText.toList = minus n.negative ++
    (n.digits.toList ++ List.replicate (-n.scale).toNat '0') := by
  unfold mantissaText text isInteger
  by_cases whole : n.scale ≤ 0
  · simp [whole, toList_signed, toList_placed_whole whole]
  · have none : (-n.scale).toNat = 0 := by omega
    simp [whole, toList_signed, none]

theorem signed?_mantissaText (reduced : n.Reduced) (bits : Nat) :
    signed? bits n.mantissaText.toList =
      (some (signedValue n.negative (n.coefficient * 10 ^ (-n.scale).toNat))).filter
        (fun k => -(2 ^ (bits - 1)) ≤ k ∧ k < 2 ^ (bits - 1)) := by
  have numeral := natOfDigits?_zeros reduced.numeral 0 (-n.scale).toNat
  rw [toList_mantissaText, signed?_minus bits n.negative (by simpa using numeral)]

theorem text_of_integer (integer : n.isInteger = true) :
    n.text = signed n.negative (n.digits.pushn '0' (-n.scale).toNat) := by
  have whole : n.scale ≤ 0 := by simpa [isInteger] using integer
  rw [text, placed, if_pos whole]

theorem long?_eq_read (n : ExactNumber) :
    n.long? = if n.isInteger then signed? 64 n.text.toList else none := by
  rw [long?, integerDigits?]
  cases integer : n.isInteger with
  | false => rfl
  | true =>
    rw [text_of_integer integer]
    rfl

theorem fixed?_eq_read (n : ExactNumber) :
    n.fixed? = if 28 < n.scale then none else
      (signed? 128 n.mantissaText.toList).bind
        (fun m => Fixed.of? (m < 0) m.natAbs n.scale.toNat) := by
  rw [fixed?, integerDigits?, mantissaText]
  cases integer : n.isInteger with
  | false => rfl
  | true =>
    have whole : n.scale ≤ 0 := by simpa [isInteger] using integer
    rw [text_of_integer integer, Int.toNat_of_nonpos whole]
    rfl

theorem isInteger_iff (reduced : n.Reduced) : n.isInteger ↔ ∃ k : ℤ, n.value = k := by
  have grid : (∃ k : ℤ, n.value = k) ↔ OnGrid 0 n.value := by simp [OnGrid]
  rw [grid, reduced.onGrid_iff, isInteger, decide_eq_true_eq]
  refine ⟨.inr, ?_⟩
  rintro (rfl | whole)
  · exact le_rfl
  · exact whole

theorem value_of_whole (whole : n.scale ≤ 0) :
    n.value = (signedValue n.negative (n.coefficient * 10 ^ (-n.scale).toNat) : ℤ) := by
  rw [value_eq, Int.toNat_of_nonpos whole]
  simp

theorem long?_eq_some_iff (reduced : n.Reduced) {k : ℤ} :
    n.long? = some k ↔ n.value = k ∧ -(2 ^ 63) ≤ k ∧ k < 2 ^ 63 := by
  rw [long?_eq_read]
  by_cases whole : n.scale ≤ 0
  · have integer : n.isInteger = true := by simpa [isInteger] using whole
    have written : n.text = n.mantissaText := by simp [mantissaText, integer]
    rw [if_pos integer, written, signed?_mantissaText reduced, Option.filter_eq_some_iff,
      Option.some.injEq, decide_eq_true_eq, value_of_whole whole, Int.cast_inj]
  · have places : n.isInteger = false := by simpa [isInteger] using whole
    rw [places]
    refine ⟨nofun, fun ⟨same, _⟩ => ?_⟩
    have integer := (isInteger_iff reduced).mpr ⟨k, same⟩
    rw [places] at integer
    cases integer

theorem of?_signedValue (negative : Bool) (mantissa scale : Nat) :
    Fixed.of? (signedValue negative mantissa < 0) mantissa scale =
      Fixed.of? negative mantissa scale := by
  have sign : (decide (signedValue negative mantissa < 0) && decide (mantissa ≠ 0)) =
      (negative && decide (mantissa ≠ 0)) := by
    cases negative with
    | false => simp [signedValue]
    | true =>
      simp [signedValue]
      omega
  unfold Fixed.of?
  simp only [sign]

theorem fixed?_eq (reduced : n.Reduced) : n.fixed? =
    Fixed.of? n.negative (n.coefficient * 10 ^ (-n.scale).toNat) n.scale.toNat := by
  rw [fixed?_eq_read, signed?_mantissaText reduced]
  generalize n.coefficient * 10 ^ (-n.scale).toNat = mantissa
  have size := natAbs_signedValue n.negative mantissa
  have refused (large : ¬ (mantissa < 2 ^ 96 ∧ n.scale.toNat ≤ 28)) :
      Fixed.of? n.negative mantissa n.scale.toNat = none :=
    Option.not_isSome_iff_eq_none.mp fun fits => large (Fixed.isSome_of?.mp fits)
  by_cases many : 28 < n.scale
  · rw [if_pos many, refused (by omega)]
  rw [if_neg many, Option.filter_some]
  by_cases range : -(2 ^ (128 - 1)) ≤ signedValue n.negative mantissa ∧
      signedValue n.negative mantissa < 2 ^ (128 - 1)
  · rw [if_pos (decide_eq_true range), Option.bind_some, size, of?_signedValue]
  · rw [if_neg (by simpa using range), refused (by omega)]
    rfl

theorem value_of_fixed? (reduced : n.Reduced) {d : Fixed} (fits : n.fixed? = some d) :
    d.value = n.value := by
  rw [fixed?_eq reduced] at fits
  rw [Fixed.value_of_of? fits, value_eq]

theorem isSome_fixed?_iff (reduced : n.Reduced) :
    n.fixed?.isSome ↔ ∃ (m : ℤ) (s : ℕ), |m| < 2 ^ 96 ∧ s ≤ 28 ∧ n.value = m * 10 ^ (-(s : ℤ)) := by
  rw [fixed?_eq reduced, Fixed.isSome_of?]
  constructor
  · rintro ⟨small, few⟩
    refine ⟨_, n.scale.toNat, ?_, few, value_eq n⟩
    rw [Int.abs_eq_natAbs, natAbs_signedValue]
    exact_mod_cast small
  · rintro ⟨m, s, small, few, same⟩
    rcases reduced.onGrid_iff.mp ⟨m, same⟩ with rfl | le
    · exact ⟨by decide, by decide⟩
    have whole : signedValue n.negative (n.coefficient * 10 ^ ((s : ℤ) - n.scale).toNat) = m := by
      rw [value_of_le le] at same
      exact_mod_cast mul_right_cancel₀ (ten_zpow_ne_zero _) same
    rw [← whole, Int.abs_eq_natAbs, natAbs_signedValue] at small
    refine ⟨?_, by omega⟩
    calc n.coefficient * 10 ^ (-n.scale).toNat
        ≤ n.coefficient * 10 ^ ((s : ℤ) - n.scale).toNat :=
          Nat.mul_le_mul_left _ (Nat.pow_le_pow_right (by decide) (by omega))
      _ < 2 ^ 96 := by exact_mod_cast small

theorem ofText?_scientificText (reduced : n.Reduced) (low : -(2 ^ 63) < n.scale)
    (high : n.scale ≤ 2 ^ 63) : Wide.ofText? n.scientificText = some n.wide := by
  let l : Wide.Literal := ⟨n.negative, n.digits.toList, none, some (-n.scale)⟩
  have written : n.scientificText.toList = l.chars := by
    simp [scientificText, toList_signed, l, Wide.Literal.chars, Wide.Literal.base]
  refine (Wide.ofText?_literal written (n := n.coefficient) ?_ ?_).trans ?_
  · simpa [l] using reduced.numeral
  · rintro k ⟨⟩
    omega
  · simp [l, wide]

/-- All forms of a number have its value, and those of limited size are there whenever the value has
a form of that size. Texts are read back to the value, and reading the texts gives the forms. -/
structure ExactForms (n : ExactNumber) : Prop where
  text : ∃ w, Wide.ofText? n.text = some w ∧ w.value = n.value
  integer : n.isInteger ↔ ∃ k : ℤ, n.value = k
  long : ∀ k, n.long? = some k ↔ n.value = k ∧ -(2 ^ 63) ≤ k ∧ k < 2 ^ 63
  longRead : n.long? = if n.isInteger then signed? 64 n.text.toList else none
  fixed : n.fixed?.isSome ↔
    ∃ (m : ℤ) (s : ℕ), |m| < 2 ^ 96 ∧ s ≤ 28 ∧ n.value = m * 10 ^ (-(s : ℤ))
  fixedValue : ∀ d, n.fixed? = some d → d.value = n.value
  fixedRead : n.fixed? = if 28 < n.scale then none else
    (signed? 128 n.mantissaText.toList).bind (fun m => Fixed.of? (m < 0) m.natAbs n.scale.toNat)
  wide : n.wide.value = n.value
  wideRead : -(2 ^ 63) < n.scale → n.scale ≤ 2 ^ 63 → Wide.ofText? n.scientificText = some n.wide
  field : n.field.number? = some n.value
  fieldFixed : (∃ d, n.field = .decimal d) ↔ n.fixed?.isSome

theorem number?_field (reduced : n.Reduced) : n.field.number? = some n.value := by
  unfold field
  split
  next d fits => exact congrArg some (value_of_fixed? reduced fits)
  next => rfl

/-- What is decoded can be turned into any form without loss. -/
theorem exactForms {image : List UInt8} (decoded : decode image = .ok n) : n.ExactForms where
  text := ofText?_text (reduced_of_decode decoded)
  integer := isInteger_iff (reduced_of_decode decoded)
  long _ := long?_eq_some_iff (reduced_of_decode decoded)
  longRead := long?_eq_read n
  fixed := isSome_fixed?_iff (reduced_of_decode decoded)
  fixedValue _ := value_of_fixed? (reduced_of_decode decoded)
  fixedRead := fixed?_eq_read n
  wide := value_wide n
  wideRead := ofText?_scientificText (reduced_of_decode decoded)
  field := number?_field (reduced_of_decode decoded)
  fieldFixed := by
    unfold ExactNumber.field
    cases n.fixed? <;> simp

/-- The least number of 64 bits. -/
theorem exactForms_least_long :
    let image : List UInt8 := [0x35, 92, 79, 68, 29, 98, 33, 47, 24, 43, 93, 102]
    let n : ExactNumber := ⟨true, "9223372036854775808", 0⟩
    decode image = .ok n ∧ n.long? = some (-9223372036854775808) ∧ n.ExactForms := by
  intro image n
  have decoded : decode image = .ok n := by decide +kernel
  exact ⟨decoded, by decide +kernel, exactForms decoded⟩

end ExactNumber

end ChangeCapture
