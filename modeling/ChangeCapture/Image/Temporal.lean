import ChangeCapture.Failure
import ChangeCapture.Field

/-! Images of dates, timestamps and intervals. Years are two bytes of excess 100; hours, minutes and
seconds are one more than they say; the parts of an interval have a bias so that they can be
negative. -/
namespace ChangeCapture.Image

/-- Unsigned, high byte first. -/
def bigEndian (bytes : List UInt8) : Nat := bytes.foldl (fun n b => 256 * n + b.toNat) 0

/-- A byte that is one more than what it says; zero says nothing. -/
def lessOne? (b : UInt8) : Option Nat := if b = 0 then none else some (b.toNat - 1)

/-- The seven bytes of a date and the nanoseconds of its second. -/
def dateTime (bytes : List UInt8) (nanos : Nat) : Except ImageFault Field :=
  let found : Option Timestamp :=
    match bytes with
    | [century, yearOfCentury, month, day, hour, minute, second] => do
      let year : Int := (century.toNat - 100) * 100 + (yearOfCentury.toNat - 100)
      let hour ← lessOne? hour
      let minute ← lessOne? minute
      let second ← lessOne? second
      Timestamp.of? ⟨⟨year, month.toNat, day.toNat⟩, hour, minute, second, nanos⟩
    | _ => none
  match found with
  | some t => .ok (.timestamp t)
  | none => .error .dateTime

def date (bytes : List UInt8) : Except ImageFault Field :=
  if bytes.length = 7 then dateTime bytes 0
  else .error (.length (.exactly 7) bytes.length)

/-- A date, and nanoseconds unless there are none. -/
def timestamp (bytes : List UInt8) : Except ImageFault Field :=
  if bytes.length = 7 then dateTime bytes 0
  else if bytes.length = 11 then dateTime (bytes.take 7) (bigEndian (bytes.drop 7))
  else .error (.length (.either 7 11) bytes.length)

/-- Stored in UTC, so that the two bytes of the zone are not needed. -/
def timestampTz (bytes : List UInt8) : Except ImageFault Field :=
  if bytes.length = 13 then dateTime (bytes.take 7) (bigEndian ((bytes.drop 7).take 4))
  else .error (.length (.exactly 13) bytes.length)

def wordBias : Int := 2 ^ 31
def byteBias : Int := 60

def biasedWord (bytes : List UInt8) : Int := bigEndian bytes - wordBias
def biasedByte (b : UInt8) : Int := b.toNat - byteBias

/-- One sign for all parts. -/
def sign (parts : List Int) : String := if parts.any (· < 0) then "-" else "+"

def part (width : Nat) (value : Int) : String := Text.padded width (toString value.natAbs)

def dayToSecondText (days hours minutes seconds nanos : Int) : String :=
  s!"{sign [days, hours, minutes, seconds, nanos]}{part 2 days} " ++
    s!"{part 2 hours}:{part 2 minutes}:{part 2 seconds}.{part 9 nanos}"

def intervalDayToSecond (bytes : List UInt8) : Except ImageFault Field :=
  match bytes with
  | [d0, d1, d2, d3, hours, minutes, seconds, n0, n1, n2, n3] =>
    .ok (.interval (dayToSecondText (biasedWord [d0, d1, d2, d3]) (biasedByte hours)
      (biasedByte minutes) (biasedByte seconds) (biasedWord [n0, n1, n2, n3])))
  | _ => .error (.length (.exactly 11) bytes.length)

def yearToMonthText (years months : Int) : String :=
  s!"{sign [years, months]}{part 2 years}-{part 2 months}"

def intervalYearToMonth (bytes : List UInt8) : Except ImageFault Field :=
  match bytes with
  | [y0, y1, y2, y3, months] =>
    .ok (.interval (yearToMonthText (biasedWord [y0, y1, y2, y3]) (biasedByte months)))
  | _ => .error (.length (.exactly 5) bytes.length)

end ChangeCapture.Image
