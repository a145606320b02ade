import ChangeCapture.Proofs.Numerals
import Mathlib.Algebra.BigOperators.Fin
import Mathlib.Algebra.Order.Field.Rat
import Mathlib.Algebra.Order.Field.Power
import Mathlib.Tactic.Ring

/-! What the image of a number stands for. A number is a whole multiple of `10^-t` just where its
scale is at most `t`, since its coefficient ends in no zero; so its value tells the number. -/
namespace ChangeCapture

namespace Decimal

/-- Whether a value is a whole multiple of `10^-places`. -/
def OnGrid (places : ℤ) (v : ℚ) : Prop := ∃ m : ℤ, v = m * 10 ^ (-places)

theorem ten_ne_zero : (10 : ℚ) ≠ 0 := by norm_num

theorem ten_zpow_ne_zero (k : ℤ) : (10 : ℚ) ^ k ≠ 0 := zpow_ne_zero k ten_ne_zero

theorem ten_zpow_of_le {k l : ℤ} (le : k ≤ l) : (10 : ℚ) ^ l = 10 ^ (l - k).toNat * 10 ^ k := by
  rw [← zpow_natCast, Int.toNat_of_nonneg (by omega), ← zpow_add₀ ten_ne_zero]
  congr 1
  omega

theorem OnGrid.whole {places : ℤ} (none : places ≤ 0) {v : ℚ} (grid : OnGrid places v) :
    ∃ k : ℤ, v = k := by
  obtain ⟨m, rfl⟩ := grid
  refine ⟨m * 10 ^ (-places).toNat, ?_⟩
  push_cast
  rw [← zpow_natCast, Int.toNat_of_nonneg (by omega)]

end Decimal

namespace ExactNumber

open Decimal

/-- `coefficient * 10^-scale` under its sign. -/
def value (n : ExactNumber) : ℚ := signedValue n.negative n.coefficient * 10 ^ (-n.scale)

@[simp] theorem natAbs_signedValue (negative : Bool) (n : Nat) :
    (signedValue negative n).natAbs = n := by
  cases negative <;> simp [signedValue]

@[simp] theorem signedValue_zero (negative : Bool) : signedValue negative 0 = 0 := by
  cases negative <;> rfl

theorem signedValue_mul (negative : Bool) (m n : Nat) :
    signedValue negative (m * n) = signedValue negative m * n := by
  cases negative <;> simp [signedValue]

theorem signedValue_eq_zero_iff {negative : Bool} {n : Nat} :
    signedValue negative n = 0 ↔ n = 0 := by
  rw [← Int.natAbs_eq_zero, natAbs_signedValue]

theorem signedValue_inj {p q : Bool} {m n : Nat} (nonzero : m ≠ 0)
    (same : signedValue p m = signedValue q n) : p = q ∧ m = n := by
  have numbers : m = n := by
    rw [← natAbs_signedValue p m, same, natAbs_signedValue]
  refine ⟨?_, numbers⟩
  subst numbers
  cases p <;> cases q <;> simp only [signedValue, reduceIte, Bool.false_eq_true] at same <;>
    first | rfl | omega

@[simp] theorem coefficient_zero : zero.coefficient = 0 := rfl

@[simp] theorem value_zero : zero.value = 0 := by simp [value]

theorem value_eq_zero_iff {n : ExactNumber} : n.value = 0 ↔ n.coefficient = 0 := by
  rw [value, mul_eq_zero, or_iff_left (ten_zpow_ne_zero _), Int.cast_eq_zero,
    signedValue_eq_zero_iff]

/-- Digits that neither begin nor end with a zero, or those of zero in its one form. -/
structure Reduced (n : ExactNumber) : Prop where
  numeral : Text.natOfDigits? n.digits.toList = some n.coefficient
  ends : n = zero ∨ n.digits.toList.head? ≠ some '0' ∧ n.digits.toList.getLast? ≠ some '0'

theorem reduced_zero : zero.Reduced := ⟨by decide +kernel, .inl rfl⟩

theorem value_of_le {n : ExactNumber} {places : ℤ} (le : n.scale ≤ places) :
    n.value = (signedValue n.negative (n.coefficient * 10 ^ (places - n.scale).toNat) : ℚ) *
      10 ^ (-places) := by
  have room : -n.scale - -places = places - n.scale := by ring
  rw [value, ten_zpow_of_le (Int.neg_le_neg le), room, signedValue_mul]
  push_cast
  ring

namespace Reduced

variable {m n : ExactNumber}

/-- The coefficient ends in no zero, but for zero itself. -/
theorem coefficient_mod (reduced : n.Reduced) : n = zero ∨ n.coefficient % 10 ≠ 0 := by
  refine reduced.ends.imp_right fun ends => ?_
  obtain ⟨nonempty, digits, -⟩ := Text.natOfDigits?_eq_some_iff.mp reduced.numeral
  obtain ⟨front, c, split⟩ := List.eq_nil_or_concat n.digits.toList |>.resolve_left nonempty
  rw [List.concat_eq_append] at split
  obtain ⟨small, char⟩ := Text.digitChar_digitValue (digits c (by simp [split]))
  have value : Text.digitValue c ≠ 0 := by
    intro zero
    rw [zero] at char
    exact ends.2 (by simp [split, ← char])
  rw [coefficient, split, Text.natOfDigits_concat]
  omega

/-- The digits are the text of the coefficient. -/
theorem digits_eq (reduced : n.Reduced) : n.digits = toString n.coefficient := by
  rcases reduced.ends with rfl | ends
  · decide +kernel
  obtain ⟨nonempty, digits, -⟩ := Text.natOfDigits?_eq_some_iff.mp reduced.numeral
  refine String.toList_inj.mp ?_
  rw [Text.toList_natural, coefficient, (Text.toDigits_natOfDigits nonempty digits ends.1).2]

theorem eq_zero (reduced : n.Reduced) (null : n.value = 0) : n = zero := by
  rcases reduced.coefficient_mod with rfl | ends
  · rfl
  · rw [value_eq_zero_iff.mp null] at ends
    exact absurd rfl ends

/-- No number has a form with fewer places. -/
theorem onGrid_iff (reduced : n.Reduced) {places : ℤ} :
    OnGrid places n.value ↔ n = zero ∨ n.scale ≤ places := by
  constructor
  · rintro ⟨m, same⟩
    rcases reduced.coefficient_mod with rfl | ends
    · exact .inl rfl
    refine .inr (le_of_not_gt fun coarser => ends ?_)
    rw [value, ten_zpow_of_le (Int.neg_le_neg (le_of_lt coarser)), ← mul_assoc] at same
    have whole : signedValue n.negative n.coefficient = m * 10 ^ (-places - -n.scale).toNat := by
      exact_mod_cast mul_right_cancel₀ (ten_zpow_ne_zero _) same
    obtain ⟨zeros, count⟩ : ∃ k, (-places - -n.scale).toNat = k + 1 :=
      ⟨(-places - -n.scale).toNat - 1, by omega⟩
    rw [count, pow_succ, ← mul_assoc] at whole
    rw [← natAbs_signedValue n.negative n.coefficient, whole, Int.natAbs_mul]
    exact Nat.mul_mod_left _ _
  · rintro (rfl | le)
    · exact ⟨0, by simp⟩
    · exact ⟨_, value_of_le le⟩

theorem ext (reduced : m.Reduced) (reduced' : n.Reduced) (same : m.value = n.value) : m = n := by
  by_cases null : n.value = 0
  · rw [reduced.eq_zero (same.trans null), reduced'.eq_zero null]
  have left : m ≠ zero := fun zero => null (by rw [← same, zero, value_zero])
  have right : n ≠ zero := fun zero => null (by rw [zero, value_zero])
  have le : m.scale ≤ n.scale :=
    (reduced.onGrid_iff.mp (same ▸ reduced'.onGrid_iff.mpr (.inr le_rfl))).resolve_left left
  have ge : n.scale ≤ m.scale :=
    (reduced'.onGrid_iff.mp (same ▸ reduced.onGrid_iff.mpr (.inr le_rfl))).resolve_left right
  have scales : m.scale = n.scale := le_antisymm le ge
  have whole : signedValue m.negative m.coefficient = signedValue n.negative n.coefficient := by
    rw [value, value, scales] at same
    exact_mod_cast mul_right_cancel₀ (ten_zpow_ne_zero _) same
  have nonzero : m.coefficient ≠ 0 := fun empty => null (same ▸ value_eq_zero_iff.mpr empty)
  obtain ⟨signs, coefficients⟩ := signedValue_inj nonzero whole
  have digits : m.digits = n.digits := by rw [reduced.digits_eq, reduced'.digits_eq, coefficients]
  cases m
  cases n
  simp_all

end Reduced

/-- A number as it is written: its digits are those of a whole number, which neither begin nor end
with a zero, and zero is written in one way. -/
structure Canonical (n : ExactNumber) : Prop where
  numeral : n.digits = toString n.coefficient
  first : n.value ≠ 0 → n.digits.toList.head? ≠ some '0'
  last : n.value ≠ 0 → n.digits.toList.getLast? ≠ some '0'
  zero : n.value = 0 → n.negative = false ∧ n.digits = "0" ∧ n.scale = 0

theorem Reduced.canonical {n : ExactNumber} (reduced : n.Reduced) : n.Canonical where
  numeral := reduced.digits_eq
  first nonzero := (reduced.ends.resolve_left fun zero => nonzero (zero ▸ value_zero)).1
  last nonzero := (reduced.ends.resolve_left fun zero => nonzero (zero ▸ value_zero)).2
  zero null := by
    rw [reduced.eq_zero null]
    exact ⟨rfl, rfl, rfl⟩

theorem exists_trimStart (cs : List Char) : ∃ k, cs = List.replicate k '0' ++ trimStart cs := by
  refine ⟨(cs.takeWhile (· = '0')).length, ?_⟩
  have zeros : cs.takeWhile (· = '0') = List.replicate (cs.takeWhile (· = '0')).length '0' :=
    List.eq_replicate_of_mem fun c member => by simpa using List.mem_takeWhile_imp member
  rw [← zeros]
  exact List.takeWhile_append_dropWhile.symm

theorem exists_trimEnd (cs : List Char) : ∃ k, cs = trimEnd cs ++ List.replicate k '0' := by
  obtain ⟨k, split⟩ := exists_trimStart cs.reverse
  refine ⟨k, ?_⟩
  have reversed := congrArg List.reverse split
  rwa [List.reverse_reverse, List.reverse_append, List.reverse_replicate] at reversed

theorem head?_trimStart (cs : List Char) : (trimStart cs).head? ≠ some '0' := by
  intro first
  have kept := List.head?_dropWhile_not (· = '0') cs
  rw [show (cs.dropWhile (· = '0')).head? = some '0' from first] at kept
  simp at kept

theorem getLast?_trimEnd (cs : List Char) : (trimEnd cs).getLast? ≠ some '0' := by
  rw [trimEnd, List.getLast?_reverse]
  exact head?_trimStart cs.reverse

theorem twoDigits_eq {d : Nat} (small : d < 100) :
    twoDigits d = [Nat.digitChar (d / 10), Nat.digitChar (d % 10)] := by
  have pairs : ∀ d < 100, twoDigits d = [Nat.digitChar (d / 10), Nat.digitChar (d % 10)] := by
    decide +kernel
  exact pairs d small

theorem isDigit_of_mem_twoDigits {d : Nat} (small : d < 100) : ∀ c ∈ twoDigits d, c.isDigit := by
  rw [twoDigits_eq small]
  simp
  omega

theorem natOfDigits_pairs {ds : List Nat} (small : ∀ d ∈ ds, d < 100) :
    Text.natOfDigits (ds.flatMap twoDigits) = ds.foldl (fun n d => 100 * n + d) 0 := by
  induction ds using List.reverseRecOn with
  | nil => rfl
  | append_singleton ds d ih =>
    have last : d < 100 := small d (by simp)
    have pair (cs : List Char) :
        Text.natOfDigits (cs ++ twoDigits d) = 100 * Text.natOfDigits cs + d := by
      rw [twoDigits_eq last, List.append_cons, Text.natOfDigits_concat, Text.natOfDigits_concat,
        Text.digitValue_digitChar (by omega), Text.digitValue_digitChar (by omega)]
      omega
    rw [List.flatMap_append, List.flatMap_singleton, pair, ih fun e member => small e (by simp [member])]
    simp

/-- What trimming leaves of digits, and what it takes off at the end. -/
theorem natOfDigits_trimmed (cs : List Char) : Text.natOfDigits cs =
    Text.natOfDigits (trimStart (trimEnd cs)) * 10 ^ (cs.length - (trimEnd cs).length) := by
  obtain ⟨k, atEnd⟩ := exists_trimEnd cs
  obtain ⟨j, front⟩ := exists_trimStart (trimEnd cs)
  have count : cs.length - (trimEnd cs).length = k := by
    have length := congrArg List.length atEnd
    rw [List.length_append, List.length_replicate] at length
    omega
  have ended : Text.natOfDigits (trimEnd cs) = Text.natOfDigits (trimStart (trimEnd cs)) := by
    conv_lhs => rw [front]
    exact Text.natOfDigits_zeros_append ..
  rw [count, ← ended]
  conv_lhs => rw [atEnd]
  exact Text.natOfDigits_append_zeros ..

theorem length_trimEnd_le (cs : List Char) : (trimEnd cs).length ≤ cs.length := by
  obtain ⟨k, split⟩ := exists_trimEnd cs
  have length := congrArg List.length split
  rw [List.length_append] at length
  omega

theorem mem_of_mem_trimmed {cs : List Char} {c : Char} (member : c ∈ trimStart (trimEnd cs)) :
    c ∈ cs := by
  obtain ⟨k, atEnd⟩ := exists_trimEnd cs
  obtain ⟨j, front⟩ := exists_trimStart (trimEnd cs)
  rw [atEnd, front]
  simp [member]

theorem ofDigits_of_empty {negative : Bool} {exponent : ℤ} {ds : List Nat}
    (empty : trimStart (trimEnd (ds.flatMap twoDigits)) = []) :
    ofDigits negative exponent ds = zero := by
  simp [ofDigits, empty]

theorem ofDigits_of_ne {negative : Bool} {exponent : ℤ} {ds : List Nat}
    (left : trimStart (trimEnd (ds.flatMap twoDigits)) ≠ []) :
    ofDigits negative exponent ds = ⟨negative,
      String.ofList (trimStart (trimEnd (ds.flatMap twoDigits))),
      2 * ((ds.length : ℤ) - 1 - exponent) -
        ((ds.flatMap twoDigits).length - (trimEnd (ds.flatMap twoDigits)).length)⟩ := by
  simp [ofDigits, left]

theorem reduced_ofDigits {negative : Bool} {exponent : ℤ} {ds : List Nat}
    (small : ∀ d ∈ ds, d < 100) : (ofDigits negative exponent ds).Reduced := by
  by_cases empty : trimStart (trimEnd (ds.flatMap twoDigits)) = []
  · rw [ofDigits_of_empty empty]
    exact reduced_zero
  rw [ofDigits_of_ne empty]
  have digits : ∀ c ∈ trimStart (trimEnd (ds.flatMap twoDigits)), c.isDigit := by
    intro c member
    obtain ⟨d, there, digit⟩ := List.mem_flatMap.mp (mem_of_mem_trimmed member)
    exact isDigit_of_mem_twoDigits (small d there) c digit
  obtain ⟨j, front⟩ := exists_trimStart (trimEnd (ds.flatMap twoDigits))
  have last : (trimStart (trimEnd (ds.flatMap twoDigits))).getLast? =
      (trimEnd (ds.flatMap twoDigits)).getLast? := by
    conv_rhs => rw [front]
    rw [List.getLast?_append_of_ne_nil _ empty]
  refine ⟨?_, .inr ⟨?_, ?_⟩⟩
  · rw [Text.natOfDigits?_eq_some_iff, String.toList_ofList, coefficient, String.toList_ofList]
    exact ⟨empty, digits, rfl⟩
  · rw [String.toList_ofList]
    exact head?_trimStart _
  · rw [String.toList_ofList, last]
    exact getLast?_trimEnd _

theorem value_ofDigits_eq {negative : Bool} {exponent : ℤ} {ds : List Nat}
    (small : ∀ d ∈ ds, d < 100) : (ofDigits negative exponent ds).value =
      signedValue negative (ds.foldl (fun n d => 100 * n + d) 0) *
        10 ^ (-(2 * ((ds.length : ℤ) - 1 - exponent))) := by
  have read := natOfDigits_pairs small
  rw [natOfDigits_trimmed] at read
  rw [← read]
  by_cases empty : trimStart (trimEnd (ds.flatMap twoDigits)) = []
  · rw [ofDigits_of_empty empty, empty, value_zero]
    simp [Text.natOfDigits]
  rw [ofDigits_of_ne empty, value, coefficient, String.toList_ofList]
  have length := length_trimEnd_le (ds.flatMap twoDigits)
  generalize (ds.flatMap twoDigits).length = whole at length ⊢
  generalize (trimEnd (ds.flatMap twoDigits)).length = left at length ⊢
  generalize 2 * ((ds.length : ℤ) - 1 - exponent) = scale
  have power : (10 : ℚ) ^ (-(scale - ((whole : ℤ) - left))) =
      10 ^ (whole - left) * 10 ^ (-scale) := by
    rw [← zpow_natCast, ← zpow_add₀ ten_ne_zero]
    congr 1
    omega
  rw [power, signedValue_mul]
  push_cast
  ring

/-- The bytes of the digits: behind the head, without the one that may end a negative number. -/
def digitBytes (head : UInt8) (bytes : List UInt8) : List UInt8 :=
  if head < 0x80 ∧ bytes.getLast? = some 102 then bytes.dropLast else bytes

/-- Whether a byte stands for a digit in a number with this head. -/
def IsDigit (head byte : UInt8) : Prop :=
  if head < 0x80 then 2 ≤ byte ∧ byte ≤ 101 else 1 ≤ byte ∧ byte ≤ 100

def digitOf (head byte : UInt8) : ℤ :=
  if head < 0x80 then 101 - byte.toNat else byte.toNat - 1

/-- The power of one hundred that the first digit counts. -/
def exponentOf (head : UInt8) : ℤ :=
  if head < 0x80 then 62 - head.toNat else head.toNat - 193

def signOf (head : UInt8) : ℤ := if head < 0x80 then -1 else 1

/-- Which value an image stands for. -/
inductive Denotes : List UInt8 → ℚ → Prop where
  | zero (rest : List UInt8) : Denotes (0x80 :: rest) 0
  | digits {head : UInt8} {bytes : List UInt8} (nonzero : head ≠ 0x80)
      (some : digitBytes head bytes ≠ []) (valid : ∀ b ∈ digitBytes head bytes, IsDigit head b) :
      Denotes (head :: bytes) (signOf head *
        ∑ i : Fin (digitBytes head bytes).length,
          (digitOf head (digitBytes head bytes)[i] : ℚ) * 100 ^ (exponentOf head - i))

/-- Whether an image has no digits although its head calls for some. -/
inductive Blank : List UInt8 → Prop where
  | nothing : Blank []
  | head {head : UInt8} {bytes : List UInt8} (nonzero : head ≠ 0x80)
      (none : digitBytes head bytes = []) : Blank (head :: bytes)

/-- Whether `b` is the first byte of an image that should stand for a digit and does not. -/
inductive Strays : List UInt8 → UInt8 → Prop where
  | intro {head b : UInt8} {bytes before after : List UInt8} (nonzero : head ≠ 0x80)
      (split : digitBytes head bytes = before ++ b :: after)
      (valid : ∀ d ∈ before, IsDigit head d) (stray : ¬ IsDigit head b) : Strays (head :: bytes) b

instance (head byte : UInt8) : Decidable (IsDigit head byte) :=
  inferInstanceAs (Decidable (if head < 0x80 then 2 ≤ byte ∧ byte ≤ 101 else 1 ≤ byte ∧ byte ≤ 100))

theorem digit?_eq (head byte : UInt8) :
    digit? (head < 0x80) byte =
      if IsDigit head byte then .ok (digitOf head byte).toNat else .error (.digit byte) := by
  unfold digit? IsDigit digitOf
  simp only [decide_eq_true_eq, UInt8.le_iff_toNat_le]
  split
  next =>
    refine if_congr ?_ rfl rfl
    show _ ↔ 2 ≤ byte.toNat ∧ byte.toNat ≤ 101
    omega
  next =>
    refine if_congr ?_ rfl rfl
    show _ ↔ 1 ≤ byte.toNat ∧ byte.toNat ≤ 100
    omega

theorem digitOf_nonneg {head byte : UInt8} (valid : IsDigit head byte) : 0 ≤ digitOf head byte := by
  unfold IsDigit at valid
  unfold digitOf
  simp only [UInt8.le_iff_toNat_le] at valid
  split at valid
  next negative =>
    have most : byte.toNat ≤ 101 := valid.2
    rw [if_pos negative]
    omega
  next positive =>
    have least : 1 ≤ byte.toNat := valid.1
    rw [if_neg positive]
    omega

theorem digitValues_lt {head : UInt8} {l : List UInt8} (valid : ∀ b ∈ l, IsDigit head b) :
    ∀ d ∈ l.map (fun b => (digitOf head b).toNat), d < 100 := by
  simp only [List.mem_map, forall_exists_index, and_imp, forall_apply_eq_imp_iff₂]
  intro b member
  have digit := valid b member
  unfold IsDigit at digit
  unfold digitOf
  simp only [UInt8.le_iff_toNat_le] at digit
  split at digit
  next negative =>
    have least : 2 ≤ b.toNat := digit.1
    rw [if_pos negative]
    omega
  next positive =>
    have most : b.toNat ≤ 100 := digit.2
    rw [if_neg positive]
    omega

theorem mapM_digit?_eq_ok_iff {head : UInt8} {l : List UInt8} {ds : List Nat} :
    l.mapM (digit? (head < 0x80)) = .ok ds ↔
      (∀ b ∈ l, IsDigit head b) ∧ ds = l.map (fun b => (digitOf head b).toNat) := by
  induction l generalizing ds with
  | nil => simp [pure, Except.pure, eq_comm]
  | cons b l ih =>
    rw [List.mapM_cons, digit?_eq]
    by_cases valid : IsDigit head b
    · rw [if_pos valid]
      cases rest : l.mapM (digit? (head < 0x80)) with
      | error f =>
        refine ⟨nofun, fun ⟨all, _⟩ => ?_⟩
        cases rest.symm.trans (ih.mpr ⟨(List.forall_mem_cons.mp all).2, rfl⟩)
      | ok others =>
        obtain ⟨all, rfl⟩ := ih.mp rest
        constructor
        · rintro ⟨⟩
          exact ⟨List.forall_mem_cons.mpr ⟨valid, all⟩, rfl⟩
        · rintro ⟨-, rfl⟩
          rfl
    · rw [if_neg valid]
      exact ⟨nofun, fun ⟨all, _⟩ => absurd (all b List.mem_cons_self) valid⟩

theorem mapM_digit?_eq_error_iff {head : UInt8} {l : List UInt8} {f : ImageFault} :
    l.mapM (digit? (head < 0x80)) = .error f ↔ ∃ before b after, l = before ++ b :: after ∧
      (∀ d ∈ before, IsDigit head d) ∧ ¬ IsDigit head b ∧ f = .digit b := by
  induction l with
  | nil => simp [pure, Except.pure]
  | cons b l ih =>
    rw [List.mapM_cons, digit?_eq]
    by_cases valid : IsDigit head b
    · rw [if_pos valid]
      have step : (do
          let d ← (.ok (digitOf head b).toNat : Except ImageFault Nat)
          let ds ← l.mapM (digit? (head < 0x80))
          pure (d :: ds)) = .error f ↔ l.mapM (digit? (head < 0x80)) = .error f := by
        cases l.mapM (digit? (head < 0x80)) with
        | error g => rfl
        | ok ds => exact ⟨nofun, nofun⟩
      refine step.trans (ih.trans ⟨?_, ?_⟩)
      · rintro ⟨before, stray, after, rfl, all, rest⟩
        exact ⟨b :: before, stray, after, rfl, List.forall_mem_cons.mpr ⟨valid, all⟩, rest⟩
      · rintro ⟨before, stray, after, split, all, rest⟩
        obtain ⟨rfl, same⟩ | ⟨before, rfl, rfl⟩ := List.cons_eq_append_iff.mp split
        · cases same
          exact absurd valid rest.1
        · exact ⟨before, stray, after, rfl, (List.forall_mem_cons.mp all).2, rest⟩
    · rw [if_neg valid]
      constructor
      · rintro ⟨⟩
        exact ⟨[], b, l, rfl, nofun, valid, rfl⟩
      · rintro ⟨before, stray, after, split, all, rest⟩
        obtain ⟨rfl, same⟩ | ⟨before, rfl, -⟩ := List.cons_eq_append_iff.mp split
        · cases same
          rw [rest.2]
          rfl
        · exact absurd (all b List.mem_cons_self) valid

theorem decode_cons {head : UInt8} {bytes : List UInt8} (nonzero : head ≠ 0x80) :
    decode (head :: bytes) =
      if digitBytes head bytes = [] then .error .empty
      else ((digitBytes head bytes).mapM (digit? (head < 0x80))).map
        (ofDigits (head < 0x80) (exponentOf head)) := by
  have dropped : (if head < 0x80 then dropTerminator bytes else bytes) = digitBytes head bytes := by
    unfold dropTerminator digitBytes terminator
    by_cases negative : head < 0x80 <;> simp [negative]
  rw [decode, if_neg (show ¬ head = zeroHead from nonzero)]
  simp only [dropped, List.isEmpty_iff]
  rfl

/-- A number in base one hundred, digit by digit, behind any start: what was read before a digit moves
up by one place with it. -/
theorem foldl_eq_sum (f : α → Nat) (l : List α) (start : Nat) (e : ℤ) :
    (((l.map f).foldl (fun n d => 100 * n + d) start : ℕ) : ℚ) * 100 ^ (e + 1 - l.length) =
      start * 100 ^ (e + 1) + ∑ i : Fin l.length, (f l[i] : ℚ) * 100 ^ (e - i) := by
  have hundred : (100 : ℚ) ≠ 0 := by norm_num
  induction l generalizing start e with
  | nil => simp
  | cons a l ih =>
    have shorter : e - 1 + 1 - (l.length : ℤ) = e + 1 - ((a :: l).length : ℤ) := by
      rw [List.length_cons]
      push_cast
      ring
    have later (i : Fin l.length) :
        (f l[i] : ℚ) * 100 ^ (e - 1 - (i : ℤ)) = f (a :: l)[i.succ] * 100 ^ (e - (i.succ : ℕ)) := by
      have exponent : e - 1 - (i : ℤ) = e - (i.succ : ℕ) := by
        rw [Fin.val_succ]
        push_cast
        ring
      rw [exponent]
      rfl
    have next := ih (100 * start + f a) (e - 1)
    rw [shorter, Finset.sum_congr rfl fun i _ => later i, sub_add_cancel] at next
    rw [List.map_cons, List.foldl_cons, next]
    have first : ∑ i : Fin (a :: l).length, (f (a :: l)[i] : ℚ) * 100 ^ (e - i) =
        f a * 100 ^ e + ∑ i : Fin l.length, (f (a :: l)[i.succ] : ℚ) * 100 ^ (e - (i.succ : ℕ)) := by
      refine (Fin.sum_univ_succ _).trans ?_
      simp
    rw [first, zpow_add₀ hundred, zpow_one]
    push_cast
    ring

theorem value_ofDigits {head : UInt8} {l : List UInt8} (valid : ∀ b ∈ l, IsDigit head b) :
    (ofDigits (head < 0x80) (exponentOf head) (l.map fun b => (digitOf head b).toNat)).value =
      signOf head * ∑ i : Fin l.length, (digitOf head l[i] : ℚ) * 100 ^ (exponentOf head - i) := by
  have sign (n : Nat) : (signedValue (head < 0x80) n : ℚ) = signOf head * n := by
    unfold signedValue signOf
    by_cases negative : head < 0x80 <;> simp [negative]
  have power : (10 : ℚ) ^ (-(2 * ((l.length : ℤ) - 1 - exponentOf head))) =
      100 ^ (exponentOf head + 1 - l.length) := by
    have double : -(2 * ((l.length : ℤ) - 1 - exponentOf head)) =
        (2 : ℕ) * (exponentOf head + 1 - l.length) := by
      push_cast
      ring
    rw [double, zpow_mul, zpow_natCast]
    norm_num
  have digit (i : Fin l.length) : ((digitOf head l[i]).toNat : ℚ) = digitOf head l[i] := by
    have whole := Int.toNat_of_nonneg (digitOf_nonneg (valid l[i] (List.getElem_mem i.2)))
    exact_mod_cast congrArg (fun z : ℤ => (z : ℚ)) whole
  have sum := foldl_eq_sum (fun b => (digitOf head b).toNat) l 0 (exponentOf head)
  rw [Finset.sum_congr rfl fun i _ => by rw [digit i]] at sum
  rw [value_ofDigits_eq (digitValues_lt valid), List.length_map, power, sign, mul_assoc, sum]
  simp

/-- The digits of an image as numbers. -/
def digitValues (head : UInt8) (bytes : List UInt8) : List Nat :=
  (digitBytes head bytes).map (fun b => (digitOf head b).toNat)

theorem decode_ok {image : List UInt8} {n : ExactNumber} (decoded : decode image = .ok n) :
    (∃ rest, image = 0x80 :: rest ∧ n = zero) ∨
      ∃ head bytes, image = head :: bytes ∧ head ≠ 0x80 ∧ digitBytes head bytes ≠ [] ∧
        (∀ b ∈ digitBytes head bytes, IsDigit head b) ∧
        n = ofDigits (head < 0x80) (exponentOf head) (digitValues head bytes) := by
  cases image with
  | nil => cases decoded
  | cons head bytes =>
    by_cases nonzero : head = 0x80
    · subst nonzero
      cases decoded
      exact .inl ⟨bytes, rfl, rfl⟩
    rw [decode_cons nonzero] at decoded
    split at decoded
    · cases decoded
    next some =>
      cases read : (digitBytes head bytes).mapM (digit? (head < 0x80)) with
      | error f => rw [read] at decoded; cases decoded
      | ok ds =>
        rw [read] at decoded
        cases decoded
        obtain ⟨valid, rfl⟩ := mapM_digit?_eq_ok_iff.mp read
        exact .inr ⟨head, bytes, rfl, nonzero, some, valid, rfl⟩

theorem reduced_of_decode {image : List UInt8} {n : ExactNumber} (decoded : decode image = .ok n) :
    n.Reduced := by
  rcases decode_ok decoded with ⟨rest, rfl, rfl⟩ | ⟨head, bytes, rfl, -, -, valid, rfl⟩
  · exact reduced_zero
  · exact reduced_ofDigits (digitValues_lt valid)

/-- Images that stand for a value are decoded to it, and no others are decoded. -/
theorem denotes_iff {image : List UInt8} {v : ℚ} :
    Denotes image v ↔ ∃ n, decode image = .ok n ∧ n.value = v := by
  constructor
  · rintro (rest | ⟨nonzero, some, valid⟩)
    · exact ⟨zero, rfl, value_zero⟩
    · refine ⟨_, ?_, value_ofDigits valid⟩
      rw [decode_cons nonzero, if_neg some, mapM_digit?_eq_ok_iff.mpr ⟨valid, rfl⟩]
      rfl
  · rintro ⟨n, decoded, rfl⟩
    rcases decode_ok decoded with ⟨rest, rfl, rfl⟩ | ⟨head, bytes, rfl, nonzero, some, valid, rfl⟩
    · exact value_zero ▸ .zero rest
    · rw [digitValues, value_ofDigits valid]
      exact .digits nonzero some valid

theorem decode_eq_error_iff {image : List UInt8} {f : ImageFault} :
    decode image = .error f ↔ Blank image ∧ f = .empty ∨ ∃ b, Strays image b ∧ f = .digit b := by
  cases image with
  | nil =>
    constructor
    · rintro ⟨⟩
      exact .inl ⟨.nothing, rfl⟩
    · rintro (⟨-, rfl⟩ | ⟨b, stray, -⟩)
      · rfl
      · cases stray
  | cons head bytes =>
    by_cases nonzero : head = 0x80
    · subst nonzero
      refine ⟨nofun, ?_⟩
      rintro (⟨blank, -⟩ | ⟨b, stray, -⟩)
      · cases blank with | head nonzero => exact absurd rfl nonzero
      · cases stray with | intro nonzero => exact absurd rfl nonzero
    rw [decode_cons nonzero]
    by_cases none : digitBytes head bytes = []
    · rw [if_pos none]
      constructor
      · rintro ⟨⟩
        exact .inl ⟨.head nonzero none, rfl⟩
      · rintro (⟨-, rfl⟩ | ⟨b, stray, -⟩)
        · rfl
        · cases stray with | intro _ split => simp [none] at split
    · rw [if_neg none]
      have passed : ((digitBytes head bytes).mapM (digit? (head < 0x80))).map
            (ofDigits (head < 0x80) (exponentOf head)) = .error f ↔
          (digitBytes head bytes).mapM (digit? (head < 0x80)) = .error f := by
        cases (digitBytes head bytes).mapM (digit? (head < 0x80)) <;> simp [Except.map]
      rw [passed, mapM_digit?_eq_error_iff]
      constructor
      · rintro ⟨before, b, after, split, valid, stray, rfl⟩
        exact .inr ⟨b, .intro nonzero split valid stray, rfl⟩
      · rintro (⟨blank, -⟩ | ⟨b, stray, rfl⟩)
        · cases blank with | head _ empty => exact absurd empty none
        · cases stray with
          | intro _ split valid stray => exact ⟨_, b, _, split, valid, stray, rfl⟩

/-- An image is decoded to the number of the value that it stands for, in the one form of that
value, or fails for want of digits or with the first byte that is none. -/
theorem decode_denotes (image : List UInt8) :
    (∀ v, Denotes image v ↔ ∃ n, decode image = .ok n ∧ n.value = v) ∧
      (∀ f, decode image = .error f → f = .empty ∨ ∃ b, f = .digit b) ∧
      (decode image = .error .empty ↔ Blank image) ∧
      (∀ b, decode image = .error (.digit b) ↔ Strays image b) ∧
      ∀ n, decode image = .ok n →
        n.Canonical ∧ ∀ other m, decode other = .ok m → m.value = n.value → m = n := by
  refine ⟨fun v => denotes_iff, fun f failed => ?_, ?_, fun b => ?_, fun n decoded => ?_⟩
  · rcases decode_eq_error_iff.mp failed with ⟨-, rfl⟩ | ⟨b, -, rfl⟩
    · exact .inl rfl
    · exact .inr ⟨b, rfl⟩
  · simp [decode_eq_error_iff]
  · simp [decode_eq_error_iff]
  · have reduced := reduced_of_decode decoded
    exact ⟨reduced.canonical, fun other m decoded' same =>
      (reduced_of_decode decoded').ext reduced same⟩

/-- Zeros at either end, in front of a byte that ends the number. -/
theorem decode_denotes_zeros_at_both_ends :
    let image : List UInt8 := [0x3D, 101, 100, 81, 101, 102]
    let n : ExactNumber := ⟨true, "12", 1⟩
    decode image = .ok n ∧ Denotes image (-6 / 5) ∧ n.Canonical ∧
      ∀ other m, decode other = .ok m → m.value = -6 / 5 → m = n := by
  intro image n
  have decoded : decode image = .ok n := by decide +kernel
  have read : n.coefficient = 12 := by decide +kernel
  have value : n.value = -6 / 5 := by norm_num [n, ExactNumber.value, signedValue, read]
  obtain ⟨denotes, -, -, -, one⟩ := decode_denotes image
  obtain ⟨canonical, only⟩ := one n decoded
  exact ⟨decoded, (denotes _).mpr ⟨n, decoded, value⟩, canonical, value ▸ only⟩

end ExactNumber

end ChangeCapture
