import ChangeCapture.TypeSpec
import ChangeCapture.Proofs.NumberForms
import Mathlib

/-! Declared types and the ways to write them. A declaration consists of words and sizes; white space
around them, the case of letters and the unit of a size are the writer's choice and do not count. A
column is declared by what its type is read from again. -/
namespace ChangeCapture

namespace Text

def Blanks (cs : List Char) : Prop := ∀ c ∈ cs, isBlank c

instance (cs : List Char) : Decidable (Blanks cs) := decidable_of_iff _ List.all_eq_true

/-- The same text but for the case of its ASCII letters. -/
def SameLetters (cs ds : List Char) : Prop := cs.map Char.toUpper = ds.map Char.toUpper

instance (cs ds : List Char) : Decidable (SameLetters cs ds) := inferInstanceAs (Decidable (_ = _))

/-- Something without white space that opens no parenthesis. -/
structure IsWord (cs : List Char) : Prop where
  nonempty : cs ≠ []
  unbroken : ∀ c ∈ cs, ¬ isBlank c
  closed : ∀ c ∈ cs, c ≠ '('

/-- A word has an end in front of white space, a parenthesis or nothing. -/
def EndsWord (cs : List Char) : Prop := ∀ c ∈ cs.head?, isBlank c ∨ c = '('

theorem toUpper_cases (c : Char) :
    c.toUpper = c ∨ 97 ≤ c.toNat ∧ c.toNat ≤ 122 ∧ c.toUpper.toNat = c.toNat - 32 := by
  by_cases lower : c.isLower
  · have bounds : 97 ≤ c.toNat ∧ c.toNat ≤ 122 := by
      simpa [Char.isLower, UInt32.le_iff_toNat_le] using lower
    right
    refine ⟨bounds.1, bounds.2, ?_⟩
    rw [Char.toUpper_eq_of_isLower lower, Char.toNat_ofNat, if_pos]
    simp only [Nat.isValidChar]
    omega
  · exact .inl (Char.toUpper_eq_of_not_isLower lower)

theorem not_isBlank_of_letter {c : Char} (low : 65 ≤ c.toNat) (high : c.toNat ≤ 122) :
    isBlank c = false := by
  have apart : ∀ r ∈ blankRanges, r.2 < 65 ∨ 122 < r.1 := by decide
  simp only [isBlank, List.any_eq_false, Bool.and_eq_true, decide_eq_true_eq]
  intro r range
  have := apart r range
  omega

theorem not_isDecimalDigit_of_letter {c : Char} (low : 65 ≤ c.toNat) (high : c.toNat ≤ 122) :
    isDecimalDigit c = false := by
  have apart : ∀ z ∈ digitZeros, z + 10 ≤ 65 ∨ 122 < z := by decide
  simp only [isDecimalDigit, List.any_eq_false, Bool.and_eq_true, decide_eq_true_eq]
  intro z zero
  have := apart z zero
  omega

theorem isBlank_toUpper (c : Char) : isBlank c.toUpper = isBlank c := by
  obtain same | ⟨low, high, shifted⟩ := toUpper_cases c
  · simp [same]
  · have upper : isBlank c.toUpper = false := not_isBlank_of_letter (by omega) (by omega)
    simp [upper, not_isBlank_of_letter (by omega) high]

theorem isDecimalDigit_toUpper (c : Char) : isDecimalDigit c.toUpper = isDecimalDigit c := by
  obtain same | ⟨low, high, shifted⟩ := toUpper_cases c
  · simp [same]
  · have upper : isDecimalDigit c.toUpper = false := not_isDecimalDigit_of_letter (by omega) (by omega)
    simp [upper, not_isDecimalDigit_of_letter (by omega) high]

theorem not_isBlank_of_isDecimalDigit {c : Char} (digit : isDecimalDigit c) : ¬ isBlank c := by
  have apart : ∀ z ∈ digitZeros, ∀ r ∈ blankRanges, z + 10 ≤ r.1 ∨ r.2 < z := by decide
  simp only [isDecimalDigit, isBlank, List.any_eq_true, Bool.and_eq_true, decide_eq_true_eq] at digit ⊢
  obtain ⟨z, zero, low, high⟩ := digit
  rintro ⟨r, range, first, last⟩
  have := apart z zero r range
  omega

theorem trimStart_map_toUpper (cs : List Char) :
    trimStart (cs.map Char.toUpper) = (trimStart cs).map Char.toUpper := by
  have same : isBlank ∘ Char.toUpper = isBlank := funext isBlank_toUpper
  rw [trimStart, List.dropWhile_map, same]
  rfl

theorem trim_map_toUpper (cs : List Char) :
    trim (cs.map Char.toUpper) = (trim cs).map Char.toUpper := by
  simp [trim, trimStart_map_toUpper, ← List.map_reverse]

variable {cs ds gap rest word : List Char} {c : Char}

theorem Blanks.closed (blanks : Blanks gap) : ∀ c ∈ gap, c ≠ '(' := by
  rintro c member rfl
  exact absurd (blanks '(' member) (by decide)

theorem trimStart_gap (blanks : Blanks gap) : trimStart (gap ++ cs) = trimStart cs :=
  List.dropWhile_append_of_pos blanks

theorem trimStart_cons (dark : ¬ isBlank c) : trimStart (c :: cs) = c :: cs :=
  List.dropWhile_cons_of_neg dark

theorem trimStart_behind (blanks : Blanks gap) (dark : ¬ isBlank c) :
    trimStart (gap ++ c :: cs) = c :: cs := by
  simp [trimStart_gap blanks, trimStart_cons dark]

theorem words_cons (blank : isBlank c) : words (c :: cs) = words cs := by
  simp [words, wordsFrom, blank]

theorem words_gap (blanks : Blanks gap) : words (gap ++ cs) = words cs := by
  induction gap with
  | nil => rfl
  | cons c gap ih =>
    have more := ih fun d member => blanks d (by simp [member])
    simp [words_cons (blanks c (by simp)), more]

theorem words_blank (blanks : Blanks gap) : words gap = [] := by
  rw [← List.append_nil gap, words_gap blanks]
  rfl

theorem wordsFrom_append (unbroken : ∀ c ∈ word, ¬ isBlank c) :
    wordsFrom (word ++ rest) = (word ++ (wordsFrom rest).1, (wordsFrom rest).2) := by
  induction word with
  | nil => rfl
  | cons c word ih =>
    have more := ih fun d member => unbroken d (by simp [member])
    simp [wordsFrom, more, unbroken c (by simp)]

theorem words_append (isWord : IsWord word) (ends : ∀ c ∈ rest.head?, isBlank c) :
    words (word ++ rest) = word :: words rest := by
  have apart : (wordsFrom rest).1 = [] := by
    cases rest with
    | nil => rfl
    | cons c rest => simp [wordsFrom, ends c rfl]
  simp [words, wordsFrom_append isWord.unbroken, apart, isWord.nonempty]

theorem map_intercalate (all : List (List Char)) : ([' '].intercalate all).map Char.toUpper =
    [' '].intercalate (all.map (List.map Char.toUpper)) := by
  induction all with
  | nil => rfl
  | cons w all ih =>
    cases all with
    | nil => simp [List.intercalate]
    | cons v all => simpa [List.intercalate] using ih

end Text

theorem DataType.ofName_congr {cs ds : List Char} (same : Text.SameLetters cs ds) :
    ofName (String.ofList cs) = ofName (String.ofList ds) := by
  have same : cs.map Char.toUpper = ds.map Char.toUpper := same
  simp only [ofName, String.toList_ofList, ← Text.trim_map_toUpper, same]

namespace TypeSpec

open Text

structure IsRun (cs : List Char) : Prop where
  nonempty : cs ≠ []
  digits : ∀ c ∈ cs, isDecimalDigit c

/-- Digits, with a minus sign in front of them or without. -/
def IsSigned (cs : List Char) : Prop := ∃ negative run, cs = minus negative ++ run ∧ IsRun run

/-- Nothing, or one of the units that a size may be counted in. -/
def IsUnit (cs : List Char) : Prop :=
  cs = [] ∨ SameLetters cs ['B', 'Y', 'T', 'E'] ∨ SameLetters cs ['C', 'H', 'A', 'R']

/-- The ways to write a size. White space may stand on both sides of its numbers and its comma, and a
unit behind the first number. -/
inductive SpellsSize : Size → List Char → Prop
  | one {a b c first unit : List Char} : Blanks a → IsRun first → Blanks b → IsUnit unit →
      Blanks c → SpellsSize ⟨first, none⟩ ('(' :: (a ++ (first ++ (b ++ (unit ++ (c ++ [')']))))))
  | two {a b c d e first second unit : List Char} : Blanks a → IsRun first → Blanks b →
      IsUnit unit → Blanks c → Blanks d → IsSigned second → Blanks e →
      SpellsSize ⟨first, some second⟩
        ('(' :: (a ++ (first ++ (b ++ (unit ++ (c ++ ',' :: (d ++ (second ++ (e ++ [')'])))))))))

/-- Digits have an end in front of anything else. -/
def EndsRun (cs : List Char) : Prop := ∀ c ∈ cs.head?, ¬ isDecimalDigit c

variable {cs gap rest run unit : List Char} {c : Char}

theorem endsRun_cons (other : ¬ isDecimalDigit c) : EndsRun (c :: cs) := by
  simpa [EndsRun] using other

theorem EndsRun.behind_gap (ends : EndsRun cs) (blanks : Blanks gap) : EndsRun (gap ++ cs) := by
  cases gap with
  | nil => exact ends
  | cons c gap =>
    apply endsRun_cons
    intro digit
    exact not_isBlank_of_isDecimalDigit digit (blanks c (by simp))

theorem IsUnit.head (isUnit : IsUnit (c :: unit)) : ¬ isBlank c ∧ ¬ isDecimalDigit c := by
  have letter : c.toUpper = 'B' ∨ c.toUpper = 'C' := by
    obtain none | unit | unit := isUnit
    · cases none
    · exact .inl (List.cons.inj unit).1
    · exact .inr (List.cons.inj unit).1
  rw [← isBlank_toUpper, ← isDecimalDigit_toUpper]
  rcases letter with letter | letter <;> rw [letter] <;> decide

theorem EndsRun.behind_unit (ends : EndsRun cs) (isUnit : IsUnit unit) : EndsRun (unit ++ cs) := by
  cases unit with
  | nil => exact ends
  | cons c unit => exact endsRun_cons isUnit.head.2

theorem trimStart_run (isRun : IsRun run) : trimStart (run ++ rest) = run ++ rest := by
  obtain ⟨c, run, rfl⟩ := List.exists_cons_of_ne_nil isRun.nonempty
  exact trimStart_cons (not_isBlank_of_isDecimalDigit (isRun.digits c (by simp)))

theorem digitRun?_append (isRun : IsRun run) (ends : EndsRun rest) :
    digitRun? (run ++ rest) = some (run, rest) := by
  have none : rest.takeWhile isDecimalDigit = [] ∧ rest.dropWhile isDecimalDigit = rest := by
    cases rest with
    | nil => exact ⟨rfl, rfl⟩
    | cons c rest => simp [ends c rfl]
  have front : (run ++ rest).takeWhile isDecimalDigit = run := by
    simp [List.takeWhile_append_of_pos isRun.digits, none.1]
  have back : (run ++ rest).dropWhile isDecimalDigit = rest := by
    simp [List.dropWhile_append_of_pos isRun.digits, none.2]
  simp only [digitRun?, front, back]
  split
  next => exact absurd rfl isRun.nonempty
  next => rfl

theorem dropUnit_append
    (letters : unit.map Char.toUpper = ['B', 'Y', 'T', 'E'] ∨
      unit.map Char.toUpper = ['C', 'H', 'A', 'R']) : dropUnit (unit ++ cs) = cs := by
  have four : unit.length = 4 := by
    rcases letters with letters | letters <;> simpa using congrArg List.length letters
  have front : ((unit ++ cs).take 4).map Char.toUpper = unit.map Char.toUpper := by
    rw [List.take_left' four]
  have back : (unit ++ cs).drop 4 = cs := List.drop_left' four
  rw [dropUnit, front, back, if_pos]
  simpa [String.ofList_eq] using letters

theorem dropUnit_cons (other : c.toUpper ≠ 'B' ∧ c.toUpper ≠ 'C') : dropUnit (c :: cs) = c :: cs := by
  have noUnit : ¬ (String.ofList (((c :: cs).take 4).map Char.toUpper) = "BYTE" ∨
      String.ofList (((c :: cs).take 4).map Char.toUpper) = "CHAR") := by
    rw [String.ofList_eq, String.ofList_eq]
    rintro (unit | unit)
    · exact other.1 (List.cons.inj unit).1
    · exact other.2 (List.cons.inj unit).1
  exact if_neg noUnit

theorem digitRun?_spelled {first gap₁ gap₂ : List Char} (blanks : Blanks gap) (isRun : IsRun first)
    (blanks₁ : Blanks gap₁) (isUnit : IsUnit unit) (blanks₂ : Blanks gap₂)
    (mark : c = ',' ∨ c = ')') :
    digitRun? (trimStart (gap ++ (first ++ (gap₁ ++ (unit ++ (gap₂ ++ c :: rest)))))) =
      some (first, gap₁ ++ (unit ++ (gap₂ ++ c :: rest))) := by
  have other : ¬ isDecimalDigit c := by rcases mark with rfl | rfl <;> decide
  have ends : EndsRun (gap₁ ++ (unit ++ (gap₂ ++ c :: rest))) :=
    (((endsRun_cons other).behind_gap blanks₂).behind_unit isUnit).behind_gap blanks₁
  simp [trimStart_gap blanks, trimStart_run isRun, digitRun?_append isRun ends]

theorem dropUnit_spelled {gap₁ gap₂ : List Char} (blanks₁ : Blanks gap₁) (isUnit : IsUnit unit)
    (blanks₂ : Blanks gap₂) (mark : c = ',' ∨ c = ')') :
    trimStart (dropUnit (trimStart (gap₁ ++ (unit ++ (gap₂ ++ c :: rest))))) = c :: rest := by
  have dark : ¬ isBlank c := by rcases mark with rfl | rfl <;> decide
  cases unit with
  | nil =>
    have noUnit : c.toUpper ≠ 'B' ∧ c.toUpper ≠ 'C' := by rcases mark with rfl | rfl <;> decide
    simp [trimStart_gap blanks₁, trimStart_behind blanks₂ dark, dropUnit_cons noUnit,
      trimStart_cons dark]
  | cons u unit =>
    have letters := isUnit.resolve_left nofun
    have dropped : dropUnit (u :: (unit ++ (gap₂ ++ c :: rest))) = gap₂ ++ c :: rest :=
      dropUnit_append letters
    simp [trimStart_behind blanks₁ isUnit.head.1, dropped, trimStart_behind blanks₂ dark]

theorem second?_none : second? (')' :: rest) = some (none, ')' :: rest) := rfl

theorem second?_some {gap' second : List Char} (blanks : Blanks gap) (isSigned : IsSigned second)
    (blanks' : Blanks gap') : second? (',' :: (gap ++ (second ++ (gap' ++ ')' :: rest)))) =
      some (some second, ')' :: rest) := by
  obtain ⟨negative, run, rfl, isRun⟩ := isSigned
  have ends : EndsRun (gap' ++ ')' :: rest) :=
    (endsRun_cons (by decide : ¬ isDecimalDigit ')')).behind_gap blanks'
  have digits := digitRun?_append isRun ends
  have behind : trimStart (gap' ++ ')' :: rest) = ')' :: rest := trimStart_behind blanks' (by decide)
  cases negative with
  | true =>
    have front : trimStart (gap ++ '-' :: (run ++ (gap' ++ ')' :: rest))) =
        '-' :: (run ++ (gap' ++ ')' :: rest)) := trimStart_behind blanks (by decide)
    simp [second?, minus, front, digits, behind]
  | false =>
    obtain ⟨c, run, rfl⟩ := List.exists_cons_of_ne_nil isRun.nonempty
    have noSign : c ≠ '-' := by
      rintro rfl
      exact absurd (isRun.digits '-' (by simp)) (by decide)
    have dark := not_isBlank_of_isDecimalDigit (isRun.digits c (by simp))
    have digits' : digitRun? (c :: (run ++ (gap' ++ ')' :: rest))) =
        some (c :: run, gap' ++ ')' :: rest) := digits
    simp [second?, minus, trimStart_behind blanks dark, noSign, digits', behind]

theorem size?_spelled {size : Size} (spells : SpellsSize size cs) :
    size? (cs ++ rest) = some (size, rest) := by
  cases spells with
  | one blanks isRun blanks₁ isUnit blanks₂ =>
    simp [size?, digitRun?_spelled blanks isRun blanks₁ isUnit blanks₂ (.inr rfl),
      dropUnit_spelled blanks₁ isUnit blanks₂ (.inr rfl), second?_none]
  | two blanks isRun blanks₁ isUnit blanks₂ blanks₃ isSigned blanks₄ =>
    simp [size?, digitRun?_spelled blanks isRun blanks₁ isUnit blanks₂ (.inl rfl),
      dropUnit_spelled blanks₁ isUnit blanks₂ (.inl rfl), second?_some blanks₃ isSigned blanks₄]

/-- What a declaration consists of. -/
inductive Part where
  | word (letters : List Char)
  | size (size : Size)
deriving DecidableEq, Repr

/-- The ways to write a declaration: with white space around its parts, which two words in a row need,
and with letters of either case. -/
inductive Spells : List Part → List Char → Prop
  | done {gap : List Char} : Blanks gap → Spells [] gap
  | word {gap written letters rest : List Char} {parts : List Part} : Blanks gap → IsWord written →
      SameLetters written letters → EndsWord rest → Spells parts rest →
      Spells (.word letters :: parts) (gap ++ (written ++ rest))
  | size {gap written rest : List Char} {parts : List Part} {size : Size} : Blanks gap →
      SpellsSize size written → Spells parts rest →
      Spells (.size size :: parts) (gap ++ (written ++ rest))

/-- The words that make up the name. -/
def wordsOf (parts : List Part) : List (List Char) :=
  parts.filterMap fun
    | .word letters => some letters
    | .size _ => none

def sizesOf (parts : List Part) : List Size :=
  parts.filterMap fun
    | .word _ => none
    | .size size => some size

/-- The type that the words name, with the precision and scale that the first size gives. -/
def ofParts (parts : List Part) : TypeSpec :=
  let size := (sizesOf parts).head?
  { dataType := DataType.ofName (String.ofList ([' '].intercalate (wordsOf parts)))
    precision := (size.map (fun size => sizeValue size.first)).getD 0
    scale := ((size.bind Size.second).map sizeValue).getD 0 }

theorem scan_skip (n : Nat) (cs : List Char) : scan n cs = scan 0 (cs.drop n) := by
  induction cs generalizing n with
  | nil => simp [scan]
  | cons c cs ih =>
    cases n with
    | zero => rfl
    | succ n => simpa [scan] using ih n

theorem scan_append (closed : ∀ c ∈ cs, c ≠ '(') :
    scan 0 (cs ++ rest) = ((scan 0 rest).1, cs ++ (scan 0 rest).2) := by
  induction cs with
  | nil => rfl
  | cons c cs ih =>
    have more := ih fun d member => closed d (by simp [member])
    have noSize : size? (c :: (cs ++ rest)) = none := by
      have := closed c (by simp)
      simp [size?, this]
    simp [scan, noSize, more]

theorem scan_gap (blanks : Blanks gap) : scan 0 gap = ([], gap) := by
  rw [← List.append_nil gap, scan_append blanks.closed]
  rfl

theorem scan_size {size : Size} (spells : SpellsSize size cs) :
    scan 0 (cs ++ rest) = (size :: (scan 0 rest).1, ' ' :: (scan 0 rest).2) := by
  have found : size? (cs ++ rest) = some (size, rest) := size?_spelled spells
  obtain ⟨more, rfl⟩ : ∃ more, cs = '(' :: more := by
    cases spells <;> exact ⟨_, rfl⟩
  have skipped : scan ((more ++ rest).length - rest.length) (more ++ rest) = scan 0 rest := by
    rw [scan_skip]
    simp
  rw [List.cons_append] at found ⊢
  simp only [scan, found, skipped]

variable {parts : List Part}

/-- A word has an end in front of what is left of a declaration without its sizes. -/
theorem Spells.ends_scan (spells : Spells parts cs) (ends : EndsWord cs) :
    ∀ c ∈ (scan 0 cs).2.head?, isBlank c := by
  have behind_gap {c : Char} {gap rest : List Char} (blanks : Blanks (c :: gap)) :
      ∀ d ∈ (scan 0 (c :: gap ++ rest)).2.head?, isBlank d := by
    rw [scan_append blanks.closed]
    simpa using blanks c (by simp)
  cases spells with
  | done blanks =>
    rw [scan_gap blanks]
    exact fun c there => blanks c (List.mem_of_mem_head? there)
  | @word gap written letters rest parts blanks isWord _ _ _ =>
    cases gap with
    | cons c gap => exact behind_gap blanks
    | nil =>
      obtain ⟨c, written, rfl⟩ := List.exists_cons_of_ne_nil isWord.nonempty
      obtain blank | opened := ends c rfl
      · exact absurd blank (isWord.unbroken c (by simp))
      · exact absurd opened (isWord.closed c (by simp))
  | @size gap written rest parts size blanks spells _ =>
    cases gap with
    | cons c gap => exact behind_gap blanks
    | nil =>
      have blank : isBlank ' ' := by decide
      simp [scan_size spells, blank]

/-- A declaration is taken apart into its sizes and the words of its name. -/
theorem Spells.scanned (spells : Spells parts cs) : (scan 0 cs).1 = sizesOf parts ∧
    (words (scan 0 cs).2).map (List.map Char.toUpper) =
      (wordsOf parts).map (List.map Char.toUpper) := by
  induction spells with
  | done blanks => simp [scan_gap blanks, words_blank blanks, sizesOf, wordsOf]
  | @word gap written letters rest parts blanks isWord same ends spells ih =>
    obtain ⟨sizes, names⟩ := ih
    rw [scan_append blanks.closed, scan_append isWord.closed]
    have behind := words_append isWord (spells.ends_scan ends)
    have same : written.map Char.toUpper = letters.map Char.toUpper := same
    simp [sizes, words_gap blanks, behind, names, same, sizesOf, wordsOf]
  | @size gap written rest parts size blanks spelled spells ih =>
    obtain ⟨sizes, names⟩ := ih
    rw [scan_append blanks.closed, scan_size spelled]
    have blank : isBlank ' ' := by decide
    simp [sizes, words_gap blanks, words_cons blank, names, sizesOf, wordsOf]

/-- However a declaration is written, it is read as the type that its words and its first size give. -/
theorem parse_spelled {text : String} (spells : Spells parts text.toList) :
    parse text = ofParts parts := by
  obtain ⟨sizes, names⟩ := spells.scanned
  have named : SameLetters (squeeze (scan 0 text.toList).2) ([' '].intercalate (wordsOf parts)) := by
    rw [SameLetters, squeeze, map_intercalate, map_intercalate, names]
  simp only [parse, ofParts, sizes, DataType.ofName_congr named]
  cases sizesOf parts <;> rfl

/-- A size without anything that could be left out. -/
def Size.plain (size : Size) : List Char :=
  '(' :: (size.first ++ (size.second.elim [] (',' :: ·) ++ [')']))

theorem spellsSize_plain {size : Size} (isRun : IsRun size.first)
    (isSigned : ∀ second ∈ size.second, IsSigned second) : SpellsSize size size.plain := by
  have none : Blanks [] := nofun
  have noUnit : IsUnit [] := .inl rfl
  obtain ⟨first, _ | second⟩ := size
  · have spells := SpellsSize.one none isRun none noUnit none
    simpa [Size.plain] using spells
  · have spells := SpellsSize.two none isRun none noUnit none none (isSigned second rfl) none
    simpa [Size.plain] using spells

theorem Spells.behind {gap : List Char} (spells : Spells parts cs) (blanks : Blanks gap) :
    Spells parts (gap ++ cs) := by
  have both {more : List Char} (blanks' : Blanks more) : Blanks (gap ++ more) := by
    simpa [Blanks, or_imp, forall_and] using ⟨blanks, blanks'⟩
  cases spells with
  | done blanks' => exact .done (both blanks')
  | word blanks' isWord same ends spells =>
    rw [← List.append_assoc]
    exact .word (both blanks') isWord same ends spells
  | size blanks' size spells =>
    rw [← List.append_assoc]
    exact .size (both blanks') size spells

theorem Spells.concat {size : Size} {written : List Char} (spells : Spells parts cs)
    (size_ : SpellsSize size written) : Spells (parts ++ [.size size]) (cs ++ written) := by
  have opened : ∀ c ∈ written.head?, c = '(' := by cases size_ <;> simp
  have nothing : Spells [] [] := .done nofun
  induction spells with
  | done blanks => simpa using Spells.size blanks size_ nothing
  | @word gap word letters rest parts blanks isWord same ends spells ih =>
    rw [List.append_assoc, List.append_assoc]
    refine .word blanks isWord same ?_ ih
    cases rest with
    | nil => exact fun c there => .inr (opened c there)
    | cons c rest => exact ends
  | size blanks size spells ih =>
    rw [List.append_assoc, List.append_assoc]
    exact .size blanks size ih

theorem spells_front {word rest : List Char} {more : List (List Char)}
    (unbroken : ∀ c ∈ word, ¬ isBlank c) (closed : ∀ c ∈ word, c ≠ '(')
    (ends : ∀ c ∈ rest.head?, isBlank c) (spells : Spells (more.map .word) rest) :
    Spells ((if word.isEmpty then more else word :: more).map .word) (word ++ rest) := by
  cases word with
  | nil => exact spells
  | cons c word =>
    have none : Blanks [] := nofun
    have isWord : IsWord (c :: word) := ⟨List.cons_ne_nil c word, unbroken, closed⟩
    have spells := Spells.word none isWord rfl (fun d there => .inl (ends d there)) spells
    simpa using spells

/-- The word at the front may still grow to the left, so it is not among the parts yet. -/
theorem spells_wordsFrom (closed : ∀ c ∈ cs, c ≠ '(') : ∃ rest, cs = (wordsFrom cs).1 ++ rest ∧
    (∀ c ∈ (wordsFrom cs).1, ¬ isBlank c) ∧ (∀ c ∈ rest.head?, isBlank c) ∧
      Spells ((wordsFrom cs).2.map .word) rest := by
  induction cs with
  | nil => exact ⟨[], rfl, nofun, nofun, .done nofun⟩
  | cons c cs ih =>
    have closed' : ∀ d ∈ cs, d ≠ '(' := fun d member => closed d (by simp [member])
    obtain ⟨rest, whole, unbroken, ends, spells⟩ := ih closed'
    by_cases blank : isBlank c
    · refine ⟨c :: cs, by simp [wordsFrom, blank], by simp [wordsFrom, blank], by simp [blank], ?_⟩
      have front := spells_front unbroken (fun d member => closed' d (by rw [whole]; simp [member]))
        ends spells
      rw [← whole] at front
      have gap : Blanks [c] := by simp [Blanks, blank]
      simpa [wordsFrom, blank] using front.behind gap
    · refine ⟨rest, by simpa [wordsFrom, blank] using whole, ?_, ends, by simpa [wordsFrom, blank]⟩
      simpa [wordsFrom, blank] using unbroken

theorem spells_words (closed : ∀ c ∈ cs, c ≠ '(') : Spells ((words cs).map .word) cs := by
  obtain ⟨rest, whole, unbroken, ends, spells⟩ := spells_wordsFrom closed
  have front := spells_front unbroken (fun c member => closed c (by rw [whole]; simp [member]))
    ends spells
  rwa [← whole] at front

end TypeSpec

namespace Column

open Text TypeSpec

/-- The size that a column shows, if its type has one. -/
def declaredSize (c : Column) : Option Size :=
  if 0 < c.precision ∧ c.dataType = .number then
    some ⟨(toString c.precision).toList, some (toString c.scale).toList⟩
  else if 0 < c.precision ∧ hasSize c.dataType then some ⟨(toString c.precision).toList, none⟩
  else none

/-- What a column is declared by. -/
def declaration (c : Column) : List Part :=
  (words c.dataType.name.toList).map .word ++ (c.declaredSize.map .size).toList

/-- The precision that the declaration shows: that of numbers, characters and raw bytes. -/
def shownPrecision (c : Column) : Int :=
  if 0 < c.precision ∧ c.dataType ∈ [.number, .float, .char, .varchar, .nchar, .nvarchar, .raw] then
    c.precision
  else 0

def shownScale (c : Column) : Int := if 0 < c.precision ∧ c.dataType = .number then c.scale else 0

variable {c : Column}

theorem toList_typeSpec (c : Column) :
    c.typeSpec.toList = c.dataType.name.toList ++ c.declaredSize.elim [] Size.plain := by
  by_cases number : 0 < c.precision ∧ c.dataType = .number
  · simp [typeSpec, declaredSize, number, Size.plain, DataType.name, toString]
  by_cases sized : 0 < c.precision ∧ hasSize c.dataType
  · simp only [typeSpec, declaredSize, if_neg number, if_pos sized]
    simp [Size.plain, toString]
  · simp only [typeSpec, declaredSize, if_neg number, if_neg sized]
    simp

theorem isRun_natural (n : Nat) : IsRun (toString n).toList := by
  constructor
  · simp
  · exact fun d member => isDecimalDigit_of_isDigit d (isDigit_of_mem member)

theorem isSigned_integer (k : Int) : IsSigned (toString k).toList :=
  ⟨decide (k < 0), (toString k.natAbs).toList, toList_integer k, isRun_natural _⟩

theorem isRun_integer {k : Int} (positive : 0 < k) : IsRun (toString k).toList := by
  have unsigned : decide (k < 0) = false := by simpa using positive.le
  rw [toList_integer, unsigned]
  exact isRun_natural _

theorem spellsSize_declared {size : Size} (declared : c.declaredSize = some size) :
    SpellsSize size size.plain := by
  unfold declaredSize at declared
  split at declared
  next number =>
    cases declared
    apply spellsSize_plain (isRun_integer number.1)
    rintro second ⟨⟩
    exact isSigned_integer _
  next =>
    split at declared
    next sized =>
      cases declared
      exact spellsSize_plain (isRun_integer sized.1) nofun
    next => cases declared

theorem closed_name {t : DataType} (supported : ∀ name, t ≠ .unsupported name) :
    ∀ c ∈ t.name.toList, c ≠ '(' := by
  cases t with
  | unsupported name => exact absurd rfl (supported name)
  | _ => simp [DataType.name]

theorem ofName_squeeze {t : DataType} (known : t ≠ .unknown)
    (supported : ∀ name, t ≠ .unsupported name) :
    DataType.ofName (String.ofList (squeeze t.name.toList)) = t := by
  cases t with
  | unknown => exact absurd rfl known
  | unsupported name => exact absurd rfl (supported name)
  | _ => decide

theorem spells_declaration (supported : ∀ name, c.dataType ≠ .unsupported name) :
    Spells c.declaration c.typeSpec.toList := by
  have words := spells_words (closed_name supported)
  rw [toList_typeSpec, declaration]
  cases declared : c.declaredSize with
  | none => simpa using words
  | some size => exact words.concat (spellsSize_declared declared)

theorem sizeValue_integer {k : Int} (low : -(2 ^ 31) ≤ k) (high : k < 2 ^ 31) :
    sizeValue (toString k).toList = k := by
  have read : signed? 32 (toString k).toList = some k := signed?_integer low high
  rw [sizeValue, read]
  rfl

theorem shown_cases (c : Column) :
    ((0 < c.precision ∧ c.dataType = .number) ∧ c.shownPrecision = c.precision ∧
      c.shownScale = c.scale) ∨
    (¬ (0 < c.precision ∧ c.dataType = .number) ∧ (0 < c.precision ∧ hasSize c.dataType) ∧
      c.shownPrecision = c.precision ∧ c.shownScale = 0) ∨
    (¬ (0 < c.precision ∧ c.dataType = .number) ∧ ¬ (0 < c.precision ∧ hasSize c.dataType) ∧
      c.shownPrecision = 0 ∧ c.shownScale = 0) := by
  have shows : c.dataType ∈ [.number, .float, .char, .varchar, .nchar, .nvarchar, .raw] ↔
      c.dataType = .number ∨ hasSize c.dataType := by
    simp only [List.mem_cons, List.not_mem_nil, or_false, hasSize, Bool.or_eq_true, decide_eq_true_eq]
    tauto
  simp only [shownPrecision, shownScale, shows]
  by_cases number : 0 < c.precision ∧ c.dataType = .number
  · simp [number]
  by_cases sized : 0 < c.precision ∧ hasSize c.dataType
  · exact .inr (.inl ⟨number, sized, by simp [sized], if_neg number⟩)
  · refine .inr (.inr ⟨number, sized, if_neg ?_, if_neg number⟩)
    rintro ⟨positive, type | type⟩
    · exact number ⟨positive, type⟩
    · exact sized ⟨positive, type⟩

theorem ofParts_declaration (known : c.dataType ≠ .unknown)
    (supported : ∀ name, c.dataType ≠ .unsupported name)
    (precision : -(2 ^ 31) ≤ c.precision ∧ c.precision < 2 ^ 31)
    (scale : -(2 ^ 31) ≤ c.scale ∧ c.scale < 2 ^ 31) :
    ofParts c.declaration = ⟨c.dataType, c.shownPrecision, c.shownScale⟩ := by
  have names : wordsOf c.declaration = words c.dataType.name.toList := by
    cases declared : c.declaredSize <;> simp [declaration, declared, wordsOf, List.filterMap_map]
  have sizes : (sizesOf c.declaration).head? = c.declaredSize := by
    cases declared : c.declaredSize <;> simp [declaration, declared, sizesOf, List.filterMap_map]
  have type : DataType.ofName (String.ofList ([' '].intercalate (words c.dataType.name.toList))) =
      c.dataType := ofName_squeeze known supported
  have first := sizeValue_integer precision.1 precision.2
  have second := sizeValue_integer scale.1 scale.2
  simp only [ofParts, names, sizes, type, declaredSize]
  obtain ⟨number, shown, shown'⟩ | ⟨number, sized, shown, shown'⟩ | ⟨number, sized, shown, shown'⟩ :=
    c.shown_cases
  · simp only [if_pos number, shown, shown', Option.map_some, Option.bind_some, Option.getD_some, first,
      second]
  · simp only [if_neg number, if_pos sized, shown, shown', Option.map_some, Option.bind_some,
      Option.map_none, Option.getD_some, Option.getD_none, first]
  · simp only [if_neg number, if_neg sized, shown, shown', Option.map_none, Option.bind_none,
      Option.getD_none]

/-- A column that has what another one shows is declared like it. -/
theorem typeSpec_shown (c : Column) (id : Nat) (name : String) :
    (TypeSpec.column ⟨c.dataType, c.shownPrecision, c.shownScale⟩ id name).typeSpec = c.typeSpec := by
  obtain ⟨number, shown, shown'⟩ | ⟨number, sized, shown, shown'⟩ | ⟨number, sized, shown, shown'⟩ :=
    c.shown_cases
  · simp [typeSpec, TypeSpec.column, Column.ofType, shown, shown', number]
  · simp only [typeSpec, TypeSpec.column, Column.ofType, shown, if_neg number, if_pos sized]
  · simp only [typeSpec, TypeSpec.column, Column.ofType, shown, if_neg number, if_neg sized]
    simp

/-- A column of a supported type is declared by a text that is read as its type, with the precision and
scale as far as the text shows them; a column that is made of these is declared by the same text. It
does not count how a declaration is written. -/
theorem parse_typeSpec :
    (∀ c : Column, c.dataType ≠ .unknown → (∀ name, c.dataType ≠ .unsupported name) →
      -(2 ^ 31) ≤ c.precision ∧ c.precision < 2 ^ 31 → -(2 ^ 31) ≤ c.scale ∧ c.scale < 2 ^ 31 →
      parse c.typeSpec = ⟨c.dataType, c.shownPrecision, c.shownScale⟩ ∧
      (∀ id name, ((parse c.typeSpec).column id name).typeSpec = c.typeSpec) ∧
      Spells c.declaration c.typeSpec.toList) ∧
    ∀ parts text text', Spells parts text.toList → Spells parts text'.toList →
      parse text' = parse text := by
  constructor
  · intro c known supported precision scale
    have spells := spells_declaration supported
    have read : parse c.typeSpec = ⟨c.dataType, c.shownPrecision, c.shownScale⟩ :=
      (parse_spelled spells).trans (ofParts_declaration known supported precision scale)
    refine ⟨read, fun id name => ?_, spells⟩
    rw [read]
    exact c.typeSpec_shown id name
  · intro parts text text' spells spells'
    simp [parse_spelled spells, parse_spelled spells']

/-- A number with a negative scale, written in small letters and with white space. -/
theorem parse_typeSpec_spaced :
    parse (Column.mk 1 "AMOUNT" .number 10 (-2) true false).typeSpec = ⟨.number, 10, -2⟩ ∧
      parse "number ( 10Byte ,\t-2) " = ⟨.number, 10, -2⟩ := by
  obtain ⟨read, -, spells⟩ := parse_typeSpec.1 ⟨1, "AMOUNT", .number, 10, -2, true, false⟩ nofun nofun
    (by decide) (by decide)
  refine ⟨read, (parse_typeSpec.2 _ _ _ spells ?_).trans read⟩
  have declared : Column.declaration ⟨1, "AMOUNT", .number, 10, -2, true, false⟩ =
      [.word ['N', 'U', 'M', 'B', 'E', 'R'], .size ⟨['1', '0'], some ['-', '2']⟩] := by decide
  have ten : IsRun ['1', '0'] := ⟨nofun, by simp; decide⟩
  have minusTwo : IsSigned ['-', '2'] := ⟨true, ['2'], rfl, nofun, by simp; decide⟩
  have size : SpellsSize ⟨['1', '0'], some ['-', '2']⟩
      ('(' :: ([' '] ++ (['1', '0'] ++ ([] ++ (['B', 'y', 't', 'e'] ++ ([' '] ++
        ',' :: (['\t'] ++ (['-', '2'] ++ ([] ++ [')']))))))))) :=
    .two (by decide) ten (by decide) (.inr (.inl (by decide))) (by decide) (by decide) minusTwo
      (by decide)
  have behind : Spells [.size ⟨['1', '0'], some ['-', '2']⟩] ([' '] ++ (_ ++ [' '])) :=
    .size (by decide) size (.done (by decide))
  have number : IsWord ['n', 'u', 'm', 'b', 'e', 'r'] :=
    ⟨nofun, by simp; decide, by simp⟩
  have written : Spells (.word ['N', 'U', 'M', 'B', 'E', 'R'] :: _) ([] ++ (_ ++ _)) :=
    .word (by decide) number (by decide)
      (fun c there => .inl (by cases there; decide)) behind
  simpa [declared] using written

end Column

end ChangeCapture
