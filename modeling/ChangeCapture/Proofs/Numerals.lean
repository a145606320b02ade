import ChangeCapture.Image.Number
import Mathlib.Data.List.Basic
import Mathlib.Data.List.Induction
import Mathlib.Data.List.TakeWhile
import Mathlib.Tactic.Ring

/-! Whole numbers in ASCII digits: the text of a number is read back as that number, zeros in front
do not count, and digits without a zero in front are the text of the number that they are. -/
namespace ChangeCapture.Text

theorem toList_natural (n : Nat) : (toString n).toList = Nat.toDigits 10 n := by
  rw [Nat.toString_eq_repr, Nat.toList_repr]

theorem isDigit_of_mem {n : Nat} {c : Char} (member : c ∈ (toString n).toList) : c.isDigit :=
  Nat.isDigit_of_mem_toDigits (by decide) (by decide) (toList_natural n ▸ member)

theorem natural_inj {m n : Nat} (same : (toString m).toList = (toString n).toList) : m = n := by
  rw [toList_natural, toList_natural] at same
  have read := congrArg (fun cs => Nat.ofDigitChars 10 cs 0) same
  simpa only [Nat.ofDigitChars_toDigits (b := 10) (by decide) (by decide)] using read

/-- The sign that is written in front of a number. -/
def minus (negative : Bool) : List Char := if negative then ['-'] else []

theorem eq_of_mem_minus {negative : Bool} {c : Char} (member : c ∈ minus negative) : c = '-' := by
  cases negative with
  | true => exact List.mem_singleton.mp member
  | false => cases member

theorem toList_signed (negative : Bool) (text : String) :
    (Decimal.signed negative text).toList = minus negative ++ text.toList := by
  cases negative <;> simp [Decimal.signed, minus]

theorem toList_pushn (text : String) (c : Char) (n : Nat) :
    (text.pushn c n).toList = text.toList ++ List.replicate n c := by
  unfold String.pushn
  induction n with
  | zero => simp [Nat.repeat]
  | succ n ih => simp [Nat.repeat, ih, List.replicate_succ']

theorem toList_padded (width : Nat) (text : String) :
    (padded width text).toList = List.replicate (width - text.length) '0' ++ text.toList := by
  rw [padded, String.toList_append, toList_pushn]
  rfl

theorem natOfDigits?_eq_some_iff {cs : List Char} {n : Nat} :
    natOfDigits? cs = some n ↔ cs ≠ [] ∧ (∀ c ∈ cs, c.isDigit) ∧ natOfDigits cs = n := by
  rw [natOfDigits?, Option.ite_none_right_eq_some, Option.some.injEq, List.all_eq_true, and_assoc]

theorem natOfDigits?_natural (n : Nat) : natOfDigits? (toString n).toList = some n := by
  refine natOfDigits?_eq_some_iff.mpr ⟨?_, fun c => isDigit_of_mem, ?_⟩
  · rw [toList_natural]
    exact Nat.toDigits_ne_nil
  · rw [toList_natural]
    exact Nat.ofDigitChars_toDigits (by decide) (by decide)

theorem natOfDigits_append_zeros (cs : List Char) (k : Nat) :
    natOfDigits (cs ++ List.replicate k '0') = natOfDigits cs * 10 ^ k := by
  induction k with
  | zero => simp
  | succ k ih =>
    have last : natOfDigits (cs ++ List.replicate k '0' ++ ['0']) =
        10 * natOfDigits (cs ++ List.replicate k '0') + 0 := by
      simp only [natOfDigits, List.foldl_append, List.foldl_cons, List.foldl_nil]
      rfl
    rw [List.replicate_succ', ← List.append_assoc, last, ih, pow_succ]
    ring

theorem natOfDigits_zeros_append (cs : List Char) (k : Nat) :
    natOfDigits (List.replicate k '0' ++ cs) = natOfDigits cs := by
  induction k with
  | zero => rfl
  | succ k ih => exact ih

variable {cs : List Char} {n : Nat}

/-- Zeros in front do not count, and each one behind stands for a power. -/
theorem natOfDigits?_zeros (numeral : natOfDigits? cs = some n) (j k : Nat) :
    natOfDigits? (List.replicate j '0' ++ cs ++ List.replicate k '0') = some (n * 10 ^ k) := by
  obtain ⟨nonempty, digits, rfl⟩ := natOfDigits?_eq_some_iff.mp numeral
  refine natOfDigits?_eq_some_iff.mpr ⟨by simp [nonempty], ?_, ?_⟩
  · have zero (m : Nat) : ∀ c ∈ List.replicate m '0', c.isDigit :=
      fun c member => List.eq_of_mem_replicate member ▸ rfl
    simpa only [List.forall_mem_append] using ⟨⟨zero j, digits⟩, zero k⟩
  · rw [natOfDigits_append_zeros, natOfDigits_zeros_append]

theorem natOfDigits_concat (cs : List Char) (c : Char) :
    natOfDigits (cs ++ [c]) = 10 * natOfDigits cs + digitValue c := by
  simp [natOfDigits]

theorem digitValue_digitChar {d : Nat} (digit : d < 10) : digitValue (Nat.digitChar d) = d := by
  rw [digitValue, Nat.toNat_digitChar_of_lt_ten digit]
  omega

theorem digitChar_digitValue {c : Char} (digit : c.isDigit) :
    digitValue c < 10 ∧ Nat.digitChar (digitValue c) = c := by
  have bounds : 48 ≤ c.toNat ∧ c.toNat ≤ 57 := by
    simpa [Char.isDigit, UInt32.le_iff_toNat_le] using digit
  have small : digitValue c < 10 := by
    unfold digitValue
    omega
  refine ⟨small, Char.toNat_inj.mp ?_⟩
  rw [Nat.toNat_digitChar_of_lt_ten small, digitValue]
  omega

/-- Digits without a zero in front are the text of their number. -/
theorem toDigits_natOfDigits {cs : List Char} (nonempty : cs ≠ []) (digits : ∀ c ∈ cs, c.isDigit)
    (first : cs.head? ≠ some '0') : 0 < natOfDigits cs ∧ Nat.toDigits 10 (natOfDigits cs) = cs := by
  induction cs using List.reverseRecOn with
  | nil => exact absurd rfl nonempty
  | append_singleton cs c ih =>
    obtain ⟨small, char⟩ := digitChar_digitValue (digits c (by simp))
    rw [natOfDigits_concat]
    by_cases single : cs = []
    · subst single
      have value : digitValue c ≠ 0 := by
        intro zero
        rw [zero] at char
        exact first (by simp [← char])
      have empty : natOfDigits [] = 0 := rfl
      rw [empty, Nat.mul_zero, Nat.zero_add, Nat.toDigits_of_lt_base small, char]
      exact ⟨Nat.pos_of_ne_zero value, rfl⟩
    · rw [List.head?_append_of_ne_nil _ single] at first
      obtain ⟨positive, shown⟩ := ih single (fun d member => digits d (by simp [member])) first
      refine ⟨by omega, ?_⟩
      have joined := Nat.toDigits_append_toDigits (b := 10) (by decide) positive small
      rw [← joined, shown, Nat.toDigits_of_lt_base small, char]

theorem ne_of_numeral (numeral : natOfDigits? cs = some n) {c : Char} (other : ¬ c.isDigit) :
    c ∉ cs :=
  fun member => other ((natOfDigits?_eq_some_iff.mp numeral).2.1 c member)

theorem head?_of_numeral (numeral : natOfDigits? cs = some n) {c : Char} (other : ¬ c.isDigit) :
    cs.head? ≠ some c :=
  fun first => ne_of_numeral numeral other (List.mem_of_mem_head? first)

theorem int?_minus (negative : Bool) (numeral : natOfDigits? cs = some n) :
    int? (minus negative ++ cs) = some (ExactNumber.signedValue negative n) := by
  cases negative with
  | true => simp [minus, int?, numeral, ExactNumber.signedValue]
  | false =>
    have number : nat? cs = some n := by
      unfold nat?
      split
      · exact absurd rfl (head?_of_numeral numeral (by decide))
      · exact numeral
    show int? cs = some (n : ℤ)
    unfold int?
    split
    · exact absurd rfl (head?_of_numeral numeral (by decide))
    · rw [number]
      rfl

theorem toList_integer (k : ℤ) :
    (toString k).toList = minus (k < 0) ++ (toString k.natAbs).toList := by
  cases k with
  | ofNat n => rfl
  | negSucc n =>
    show ("-" ++ (n + 1).repr).toList = _
    simp [minus]

theorem signedValue_natAbs (k : ℤ) : ExactNumber.signedValue (k < 0) k.natAbs = k := by
  unfold ExactNumber.signedValue
  simp only [decide_eq_true_eq]
  split <;> omega

theorem signed?_minus (bits : Nat) (negative : Bool) (numeral : natOfDigits? cs = some n) :
    signed? bits (minus negative ++ cs) = (some (ExactNumber.signedValue negative n)).filter
      (fun k => -(2 ^ (bits - 1)) ≤ k ∧ k < 2 ^ (bits - 1)) := by
  rw [signed?, int?_minus negative numeral]

theorem signed?_integer {bits : Nat} {k : ℤ} (low : -(2 ^ (bits - 1)) ≤ k)
    (high : k < 2 ^ (bits - 1)) : signed? bits (toString k).toList = some k := by
  rw [toList_integer, signed?_minus bits (k < 0) (natOfDigits?_natural k.natAbs),
    signedValue_natAbs, Option.filter_some, if_pos (decide_eq_true ⟨low, high⟩)]

theorem head?_integer (k : ℤ) : (toString k).toList.head? ≠ some '+' := by
  rw [toList_integer]
  cases decide (k < 0) with
  | true => simp [minus]
  | false => exact head?_of_numeral (natOfDigits?_natural k.natAbs) (by decide)

theorem cut_of_notMem {p : Char → Bool} {cs : List Char} (absent : ∀ c ∈ cs, p c = false) :
    cut p cs = (cs, none) := by
  have all : ∀ c ∈ cs, (!p c) = true := fun c member => by simp [absent c member]
  rw [cut, List.dropWhile_eq_nil_iff.mpr all]

theorem cut_append {p : Char → Bool} {cs rest : List Char} {c : Char}
    (absent : ∀ c ∈ cs, p c = false) (here : p c = true) :
    cut p (cs ++ c :: rest) = (cs, some rest) := by
  have all : ∀ c ∈ cs, (!p c) = true := fun c member => by simp [absent c member]
  rw [cut, List.dropWhile_append_of_pos all, List.takeWhile_append_of_pos all]
  simp [here]

end ChangeCapture.Text
