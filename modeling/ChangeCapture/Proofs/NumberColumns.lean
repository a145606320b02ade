import ChangeCapture.Image
import ChangeCapture.Proofs.NumberForms
import Mathlib.Tactic.NormNum

/-! Numbers of a declared precision and scale. The field of a column goes by its precision alone; a
negative scale lets a value have more digits than that, and some of these do not fit the field. -/
namespace ChangeCapture

namespace Column

/-- Whether a column declared with this precision and scale can hold a value. -/
def Admits (c : Column) (v : ℚ) : Prop :=
  Decimal.OnGrid c.scale v ∧ |v| < 10 ^ (c.precision - c.scale)

/-- The bits of the field that a precision calls for, its sign left aside. -/
def fieldBits (c : Column) : ℕ := if c.precision ≤ 9 then 31 else 63

/-- Whether a value has too many digits for the field that the precision alone calls for. -/
def Outgrown (c : Column) (v : ℚ) : Prop :=
  c.scale < 0 ∧ 0 < c.precision ∧ c.precision ≤ 18 ∧
    ¬ (-(2 ^ c.fieldBits) ≤ v ∧ v < 2 ^ c.fieldBits)

end Column

namespace Image

open ExactNumber

theorem decode_number {column : Column} (number : column.dataType = .number) {image : List UInt8}
    {n : ExactNumber} (decoded : ExactNumber.decode image = .ok n) :
    decode column image =
      (numberField column n).mapError (.invalidValue column.name column.typeSpec) := by
  simp only [decode, number, Image.number, decoded, Except.bind]
  cases numberField column n <;> rfl

theorem numberField_whole {column : Column} {n : ExactNumber} {k : ℤ} (reduced : n.Reduced)
    (positive : 0 < column.precision) (few : column.precision ≤ 18) (places : column.scale ≤ 0)
    (whole : n.value = k) : numberField column n =
      if -(2 ^ column.fieldBits) ≤ k ∧ k < 2 ^ column.fieldBits then
        .ok (if column.precision ≤ 9 then .int k else .long k)
      else .error .overflow := by
  have integer : n.isInteger = true := (isInteger_iff reduced).mpr ⟨k, whole⟩
  have bounded : ¬ (0 < column.scale ∨ column.precision ≤ 0 ∨ longDigits < column.precision) := by
    unfold longDigits
    omega
  unfold numberField Column.fieldBits
  rw [if_neg bounded, integer]
  by_cases range : -(2 ^ 63) ≤ k ∧ k < 2 ^ 63
  · rw [(long?_eq_some_iff reduced).mpr ⟨whole, range⟩]
    by_cases short : column.precision ≤ 9
    · simp [short, intDigits]
    · rw [if_neg short, if_neg short, if_pos range]
      simp [short, intDigits]
  · have beyond : n.long? = none := by
      refine Option.eq_none_iff_forall_ne_some.mpr fun k' found => ?_
      obtain ⟨whole', range'⟩ := (long?_eq_some_iff reduced).mp found
      obtain rfl : k = k' := by exact_mod_cast whole.symm.trans whole'
      exact range range'
    have outside (bits : ℕ) (le : bits = 31 ∨ bits = 63) : ¬ (-(2 ^ bits) ≤ k ∧ k < 2 ^ bits) := by
      rcases le with rfl | rfl <;> omega
    rw [beyond, if_neg (outside _ (by split <;> simp))]
    rfl

/-- Without a negative scale a value has no more digits than the precision says. -/
theorem lt_of_admits {column : Column} {k : ℤ} (admitted : column.Admits k)
    (places : column.scale = 0) {digits : ℕ} (few : column.precision ≤ digits) :
    -(10 ^ digits) < k ∧ k < 10 ^ digits := by
  have size := admitted.2
  rw [places, sub_zero] at size
  have power : (10 : ℚ) ^ column.precision ≤ 10 ^ digits := by
    rw [← zpow_natCast]
    exact zpow_le_zpow_right₀ (by norm_num) few
  exact_mod_cast abs_lt.mp (size.trans_le power)

theorem not_outgrown_iff {column : Column} {k : ℤ} (admitted : column.Admits k)
    (positive : 0 < column.precision) (few : column.precision ≤ 18) (places : column.scale ≤ 0) :
    ¬ column.Outgrown k ↔ -(2 ^ column.fieldBits) ≤ k ∧ k < 2 ^ column.fieldBits := by
  have cast : (-(2 ^ column.fieldBits) ≤ (k : ℚ) ∧ (k : ℚ) < 2 ^ column.fieldBits) ↔
      -(2 ^ column.fieldBits) ≤ k ∧ k < 2 ^ column.fieldBits := by
    norm_cast
  have narrow (whole : column.scale = 0) :
      -(2 ^ column.fieldBits) ≤ k ∧ k < 2 ^ column.fieldBits := by
    unfold Column.fieldBits
    split
    next short =>
      have small : -(10 ^ 9) < k ∧ k < 10 ^ 9 := lt_of_admits admitted whole short
      omega
    next =>
      have small : -(10 ^ 18) < k ∧ k < 10 ^ 18 := lt_of_admits admitted whole few
      omega
  unfold Column.Outgrown
  rw [cast]
  constructor
  · intro room
    by_contra outside
    rcases places.lt_or_eq with negative | whole
    · exact room ⟨negative, positive, few, outside⟩
    · exact outside (narrow whole)
  · exact fun room outgrown => outgrown.2.2.2 room

/-- A value that the declaration of its column admits is decoded without loss, unless it outgrows
the field of the column; then it is out of range. -/
theorem decode_admitted {column : Column} {image : List UInt8} {v : ℚ}
    (number : column.dataType = .number) (denotes : Denotes image v) (admitted : column.Admits v) :
    (¬ column.Outgrown v → ∃ f, decode column image = .ok f ∧ f.number? = some v) ∧
      (column.Outgrown v →
        decode column image = .error (.invalidValue column.name column.typeSpec .overflow)) := by
  obtain ⟨n, decoded, rfl⟩ := denotes_iff.mp denotes
  have reduced := reduced_of_decode decoded
  rw [decode_number number decoded]
  by_cases free : 0 < column.scale ∨ column.precision ≤ 0 ∨ longDigits < column.precision
  · have exact : numberField column n = .ok n.field := if_pos free
    refine ⟨fun _ => ⟨n.field, by rw [exact]; rfl, number?_field reduced⟩, ?_⟩
    rintro ⟨negative, outside⟩
    unfold longDigits at free
    omega
  simp only [longDigits, not_or, not_lt, not_le] at free
  obtain ⟨places, positive, few⟩ := free
  obtain ⟨k, whole⟩ := admitted.1.whole places
  rw [whole] at admitted ⊢
  have fits := not_outgrown_iff admitted positive few places
  rw [numberField_whole reduced positive few places whole]
  refine ⟨fun room => ⟨if column.precision ≤ 9 then .int k else .long k, ?_, ?_⟩,
    fun outgrown => ?_⟩
  · rw [if_pos (fits.mp room)]
    rfl
  · split <;> rfl
  · rw [if_neg fun room => fits.mpr room outgrown]
    rfl

/-- A value of eleven digits in columns of eighteen and of nine that leave the last two places out. -/
theorem decode_admitted_hundreds :
    let image : List UInt8 := [0x39, 100, 102]
    let wide : Column := { Column.ofType 1 "N" .number with precision := 18, scale := -2 }
    let narrow : Column := { wide with precision := 9 }
    Denotes image (-10000000000) ∧ wide.Admits (-10000000000) ∧ narrow.Admits (-10000000000) ∧
      (∃ f, decode wide image = .ok f ∧ f.number? = some (-10000000000)) ∧
      decode narrow image = .error (.invalidValue "N" narrow.typeSpec .overflow) := by
  intro image wide narrow
  have decoded : ExactNumber.decode image = .ok ⟨true, "1", -10⟩ := by decide +kernel
  have one : coefficient ⟨true, "1", -10⟩ = 1 := by decide +kernel
  have denotes : Denotes image (-10000000000) :=
    denotes_iff.mpr ⟨_, decoded, by norm_num [ExactNumber.value, signedValue, one]⟩
  have grid : Decimal.OnGrid (-2) (-10000000000) := ⟨-100000000, by norm_num⟩
  have admitted : wide.Admits (-10000000000) := ⟨grid, by norm_num [wide]⟩
  have admitted' : narrow.Admits (-10000000000) := ⟨grid, by norm_num [narrow, wide]⟩
  have room : ¬ wide.Outgrown (-10000000000) := by
    norm_num [Column.Outgrown, Column.fieldBits, wide]
  have outgrown : narrow.Outgrown (-10000000000) := by
    norm_num [Column.Outgrown, Column.fieldBits, narrow, wide]
  exact ⟨denotes, admitted, admitted', (decode_admitted rfl denotes admitted).1 room,
    (decode_admitted rfl denotes admitted').2 outgrown⟩

/-- A value of eleven digits in a column of nine that leaves the last two places out. -/
theorem admitted_out_of_range :
    let column : Column := { Column.ofType 1 "N" .number with precision := 9, scale := -2 }
    let image : List UInt8 := [0xC6, 2]
    Denotes image 10000000000 ∧ column.Admits 10000000000 ∧
      decode column image = .error (.invalidValue "N" "NUMBER(9,-2)" .overflow) := by
  intro column image
  have decoded : ExactNumber.decode image = .ok ⟨false, "1", -10⟩ := by decide +kernel
  have one : coefficient ⟨false, "1", -10⟩ = 1 := by decide +kernel
  refine ⟨denotes_iff.mpr ⟨_, decoded, by norm_num [ExactNumber.value, signedValue, one]⟩,
    ⟨⟨100000000, by norm_num [column]⟩, by norm_num [column]⟩, by decide +kernel⟩

end Image

end ChangeCapture
