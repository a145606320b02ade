import ChangeCapture.Image.Temporal
import ChangeCapture.Proofs.NumberForms

/-! Texts of intervals. The numbers of an image share the sign in front of its text. Where no two of them
have opposite signs, they can be read back from the text, so that no two such images have the same. -/
namespace ChangeCapture

namespace IntervalText

open Text

/-- Numbers in digits, with the marks between them. -/
def numbers? : List Char → List Char → Option (List Nat)
  | [], cs => (natOfDigits? cs).map ([·])
  | mark :: marks, cs =>
    match cut (· = mark) cs with
    | (first, some rest) => do return (← natOfDigits? first) :: (← numbers? marks rest)
    | (_, none) => none

/-- A sign, and the numbers that all have it. -/
def parts? (marks : List Char) (text : String) : Option (List Int) :=
  match text.toList with
  | '+' :: cs => (numbers? marks cs).map (List.map (ExactNumber.signedValue false))
  | '-' :: cs => (numbers? marks cs).map (List.map (ExactNumber.signedValue true))
  | _ => none

/-- Days, hours, minutes, seconds and nanoseconds. -/
def dayToSecond? : String → Option (List Int) := parts? [' ', ':', ':', '.']

/-- Years and months. -/
def yearToMonth? : String → Option (List Int) := parts? ['-']

variable {cs rest marks : List Char} {n : Nat}

theorem numbers?_last (numeral : natOfDigits? cs = some n) : numbers? [] cs = some [n] := by
  simp [numbers?, numeral]

theorem numbers?_mark {mark : Char} (numeral : natOfDigits? cs = some n) (other : ¬ mark.isDigit) :
    numbers? (mark :: marks) (cs ++ mark :: rest) = (numbers? marks rest).map (n :: ·) := by
  have absent : ∀ c ∈ cs, decide (c = mark) = false := by
    intro c member
    apply decide_eq_false
    rintro rfl
    exact ne_of_numeral numeral other member
  have split : cut (· = mark) (cs ++ mark :: rest) = (cs, some rest) :=
    cut_append absent (decide_eq_true rfl)
  simp only [numbers?, split, numeral, Option.pure_def, Option.bind_eq_bind, Option.bind_some]
  cases numbers? marks rest <;> rfl

end IntervalText

namespace Image

open Text IntervalText

/-- Whether one sign can stand for all numbers. -/
def OneSign (parts : List Int) : Prop := (∀ k ∈ parts, 0 ≤ k) ∨ ∀ k ∈ parts, k ≤ 0

instance (parts : List Int) : Decidable (OneSign parts) := inferInstanceAs (Decidable (_ ∨ _))

theorem signedValue_part {parts : List Int} (oneSign : OneSign parts) {k : Int} (member : k ∈ parts) :
    ExactNumber.signedValue (parts.any (· < 0)) k.natAbs = k := by
  cases negative : parts.any (· < 0) with
  | false =>
    have positive : ∀ k ∈ parts, 0 ≤ k := by simpa using negative
    have := positive k member
    simp only [ExactNumber.signedValue, Bool.false_eq_true, if_false]
    omega
  | true =>
    obtain ⟨low, there, below⟩ : ∃ low ∈ parts, low < 0 := by simpa using negative
    rcases oneSign with none | all
    · have := none low there
      omega
    · have := all k member
      simp only [ExactNumber.signedValue, if_true]
      omega

theorem natOfDigits?_part (width : Nat) (k : Int) :
    natOfDigits? (part width k).toList = some k.natAbs := by
  rw [part, toList_padded]
  simpa using natOfDigits?_zeros (natOfDigits?_natural k.natAbs) _ 0

theorem numbers?_part {mark : Char} {marks rest : List Char} (width : Nat) (k : Int)
    (other : ¬ mark.isDigit) : numbers? (mark :: marks) ((part width k).toList ++ mark :: rest) =
      (numbers? marks rest).map (k.natAbs :: ·) :=
  numbers?_mark (natOfDigits?_part width k) other

/-- What is written behind the sign of numbers with one sign gives the numbers back. -/
theorem parts?_signed {parts : List Int} {marks : List Char} {text : String} (oneSign : OneSign parts)
    (numbers : numbers? marks text.toList = some (parts.map Int.natAbs)) :
    parts? marks (sign parts ++ text) = some parts := by
  have signed : parts? marks (sign parts ++ text) = (numbers? marks text.toList).map
      (List.map (ExactNumber.signedValue (parts.any (· < 0)))) := by
    unfold sign
    cases parts.any (· < 0) <;> simp [parts?]
  rw [signed, numbers, Option.map_some, List.map_map, Option.some.injEq]
  exact (List.map_congr_left fun k member => signedValue_part oneSign member).trans (List.map_id _)

theorem dayToSecond?_text {days hours minutes seconds nanos : Int}
    (oneSign : OneSign [days, hours, minutes, seconds, nanos]) :
    dayToSecond? (dayToSecondText days hours minutes seconds nanos) =
      some [days, hours, minutes, seconds, nanos] := by
  have text : dayToSecondText days hours minutes seconds nanos =
      sign [days, hours, minutes, seconds, nanos] ++
        (part 2 days ++ " " ++ part 2 hours ++ ":" ++ part 2 minutes ++ ":" ++ part 2 seconds ++
          "." ++ part 9 nanos) := by
    simp [dayToSecondText, toString, String.append_assoc]
  rw [text]
  apply parts?_signed oneSign
  simp only [String.toList_append, List.append_assoc]
  simp [numbers?_part, numbers?_last (natOfDigits?_part 9 nanos)]

theorem yearToMonth?_text {years months : Int} (oneSign : OneSign [years, months]) :
    yearToMonth? (yearToMonthText years months) = some [years, months] := by
  have text : yearToMonthText years months =
      sign [years, months] ++ (part 2 years ++ "-" ++ part 2 months) := by
    simp [yearToMonthText, toString, String.append_assoc]
  rw [text]
  apply parts?_signed oneSign
  simp only [String.toList_append, List.append_assoc]
  simp [numbers?_part, numbers?_last (natOfDigits?_part 2 months)]

/-- Days, hours, minutes, seconds and nanoseconds, without their biases. -/
def dayToSecondParts (bytes : List UInt8) : List Int :=
  [biasedWord (bytes.take 4), biasedByte bytes[4]!, biasedByte bytes[5]!, biasedByte bytes[6]!,
    biasedWord (bytes.drop 7)]

/-- Years and months, without their biases. -/
def yearToMonthParts (bytes : List UInt8) : List Int :=
  [biasedWord (bytes.take 4), biasedByte bytes[4]!]

variable {bytes bytes' : List UInt8}

theorem exists_dayToSecond (eleven : bytes.length = 11) :
    ∃ d₀ d₁ d₂ d₃ hours minutes seconds n₀ n₁ n₂ n₃,
      bytes = [d₀, d₁, d₂, d₃, hours, minutes, seconds, n₀, n₁, n₂, n₃] := by
  rcases bytes with _ | ⟨d₀, _ | ⟨d₁, _ | ⟨d₂, _ | ⟨d₃, _ | ⟨hours, _ | ⟨minutes, _ | ⟨seconds,
    _ | ⟨n₀, _ | ⟨n₁, _ | ⟨n₂, _ | ⟨n₃, _ | rest⟩⟩⟩⟩⟩⟩⟩⟩⟩⟩⟩ <;> simp at eleven ⊢

theorem exists_yearToMonth (five : bytes.length = 5) :
    ∃ y₀ y₁ y₂ y₃ months, bytes = [y₀, y₁, y₂, y₃, months] := by
  rcases bytes with _ | ⟨y₀, _ | ⟨y₁, _ | ⟨y₂, _ | ⟨y₃, _ | ⟨months, _ | rest⟩⟩⟩⟩⟩ <;> simp at five ⊢

theorem dayToSecond_reads (eleven : bytes.length = 11) (oneSign : OneSign (dayToSecondParts bytes)) :
    ∃ text, intervalDayToSecond bytes = .ok (.interval text) ∧
      dayToSecond? text = some (dayToSecondParts bytes) := by
  obtain ⟨d₀, d₁, d₂, d₃, hours, minutes, seconds, n₀, n₁, n₂, n₃, rfl⟩ := exists_dayToSecond eleven
  exact ⟨_, rfl, dayToSecond?_text oneSign⟩

theorem yearToMonth_reads (five : bytes.length = 5) (oneSign : OneSign (yearToMonthParts bytes)) :
    ∃ text, intervalYearToMonth bytes = .ok (.interval text) ∧
      yearToMonth? text = some (yearToMonthParts bytes) := by
  obtain ⟨y₀, y₁, y₂, y₃, months, rfl⟩ := exists_yearToMonth five
  exact ⟨_, rfl, yearToMonth?_text oneSign⟩

theorem foldl_inj {m n : Nat} {first second : List UInt8} (lengths : first.length = second.length)
    (same : first.foldl (fun n b => 256 * n + b.toNat) m =
      second.foldl (fun n b => 256 * n + b.toNat) n) : m = n ∧ first = second := by
  induction first generalizing m n second with
  | nil =>
    obtain rfl : second = [] := by simpa using lengths.symm
    exact ⟨same, rfl⟩
  | cons b first ih =>
    obtain _ | ⟨c, second⟩ := second
    · simp at lengths
    have lengths' : first.length = second.length := by simpa using lengths
    obtain ⟨front, rfl⟩ := ih lengths' same
    dsimp only at front
    have := b.toNat_lt
    have := c.toNat_lt
    obtain rfl : b = c := by
      apply UInt8.toNat_inj.mp
      omega
    exact ⟨by omega, rfl⟩

theorem bigEndian_inj {first second : List UInt8} (lengths : first.length = second.length)
    (same : bigEndian first = bigEndian second) : first = second :=
  (foldl_inj lengths same).2

theorem biasedWord_inj {first second : List UInt8} (lengths : first.length = second.length)
    (same : biasedWord first = biasedWord second) : first = second := by
  apply bigEndian_inj lengths
  simp only [biasedWord] at same
  omega

theorem biasedByte_inj {first second : UInt8} (same : biasedByte first = biasedByte second) :
    first = second := by
  apply UInt8.toNat_inj.mp
  simp only [biasedByte] at same
  omega

theorem dayToSecondParts_inj (eleven : bytes.length = 11) (eleven' : bytes'.length = 11)
    (same : dayToSecondParts bytes = dayToSecondParts bytes') : bytes = bytes' := by
  obtain ⟨d₀, d₁, d₂, d₃, hours, minutes, seconds, n₀, n₁, n₂, n₃, rfl⟩ := exists_dayToSecond eleven
  obtain ⟨d₀', d₁', d₂', d₃', hours', minutes', seconds', n₀', n₁', n₂', n₃', rfl⟩ :=
    exists_dayToSecond eleven'
  simp only [dayToSecondParts, List.cons.injEq, and_true] at same
  obtain ⟨days, hours, minutes, seconds, nanos⟩ := same
  have days := biasedWord_inj (by simp) days
  have nanos := biasedWord_inj (by simp) nanos
  have hours := biasedByte_inj hours
  have minutes := biasedByte_inj minutes
  have seconds := biasedByte_inj seconds
  simp_all

theorem yearToMonthParts_inj (five : bytes.length = 5) (five' : bytes'.length = 5)
    (same : yearToMonthParts bytes = yearToMonthParts bytes') : bytes = bytes' := by
  obtain ⟨y₀, y₁, y₂, y₃, months, rfl⟩ := exists_yearToMonth five
  obtain ⟨y₀', y₁', y₂', y₃', months', rfl⟩ := exists_yearToMonth five'
  simp only [yearToMonthParts, List.cons.injEq, and_true] at same
  obtain ⟨years, months⟩ := same
  have years := biasedWord_inj (by simp) years
  have months := biasedByte_inj months
  simp_all

/-- Images of one text have the parts that are read from it. -/
theorem parts_eq_of_reads {decode : List UInt8 → Except ImageFault Field}
    {read : String → Option (List Int)} {parts : List UInt8 → List Int}
    (reads : ∃ text, decode bytes = .ok (.interval text) ∧ read text = some (parts bytes))
    (reads' : ∃ text, decode bytes' = .ok (.interval text) ∧ read text = some (parts bytes'))
    (same : decode bytes = decode bytes') : parts bytes = parts bytes' := by
  obtain ⟨text, decoded, told⟩ := reads
  obtain ⟨text', decoded', told'⟩ := reads'
  obtain rfl : text = text' := by simpa [decoded, decoded'] using same
  simpa [told] using told'

/-- Images of intervals whose numbers have no two opposite signs are decoded to texts from which all
their numbers can be read, with their sign, so that different images have different texts. -/
theorem intervals_read_back :
    (∀ bytes : List UInt8, bytes.length = 11 → OneSign (dayToSecondParts bytes) →
      ∃ text, intervalDayToSecond bytes = .ok (.interval text) ∧
        dayToSecond? text = some (dayToSecondParts bytes)) ∧
    (∀ bytes bytes' : List UInt8, bytes.length = 11 → bytes'.length = 11 →
      OneSign (dayToSecondParts bytes) → OneSign (dayToSecondParts bytes') →
        intervalDayToSecond bytes = intervalDayToSecond bytes' → bytes = bytes') ∧
    (∀ bytes : List UInt8, bytes.length = 5 → OneSign (yearToMonthParts bytes) →
      ∃ text, intervalYearToMonth bytes = .ok (.interval text) ∧
        yearToMonth? text = some (yearToMonthParts bytes)) ∧
    (∀ bytes bytes' : List UInt8, bytes.length = 5 → bytes'.length = 5 →
      OneSign (yearToMonthParts bytes) → OneSign (yearToMonthParts bytes') →
        intervalYearToMonth bytes = intervalYearToMonth bytes' → bytes = bytes') := by
  refine ⟨fun _ => dayToSecond_reads, ?_, fun _ => yearToMonth_reads, ?_⟩
  · intro bytes bytes' eleven eleven' oneSign oneSign' same
    apply dayToSecondParts_inj eleven eleven'
    exact parts_eq_of_reads (dayToSecond_reads eleven oneSign) (dayToSecond_reads eleven' oneSign') same
  · intro bytes bytes' five five' oneSign oneSign' same
    apply yearToMonthParts_inj five five'
    exact parts_eq_of_reads (yearToMonth_reads five oneSign) (yearToMonth_reads five' oneSign') same

/-- The lowest numbers that an image can give. -/
theorem intervals_read_back_lowest :
    OneSign (dayToSecondParts (List.replicate 11 0)) ∧
      ∃ text, intervalDayToSecond (List.replicate 11 0) = .ok (.interval text) ∧
        dayToSecond? text = some [-2147483648, -60, -60, -60, -2147483648] := by
  have oneSign : OneSign (dayToSecondParts (List.replicate 11 0)) := by decide
  exact ⟨oneSign, intervals_read_back.1 (List.replicate 11 0) rfl oneSign⟩

end Image

end ChangeCapture
