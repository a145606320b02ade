/-! The proleptic Gregorian calendar, with a year zero and negative years before it. -/
namespace ChangeCapture.Calendar

def isLeap (year : Int) : Bool := year % 4 = 0 ∧ (year % 100 ≠ 0 ∨ year % 400 = 0)

def daysInMonth (year : Int) (month : Nat) : Nat :=
  match month with
  | 2 => if isLeap year then 29 else 28
  | 4 | 6 | 9 | 11 => 30
  | 1 | 3 | 5 | 7 | 8 | 10 | 12 => 31
  | _ => 0

structure Date where
  year : Int
  month : Nat
  day : Nat
deriving DecidableEq, Repr

def Date.Valid (d : Date) : Prop := 1 ≤ d.day ∧ d.day ≤ daysInMonth d.year d.month

instance (d : Date) : Decidable d.Valid := inferInstanceAs (Decidable (_ ∧ _))

/-- Days from 1970-01-01. Years are counted from March, so that the leap day is the last of its year;
146097 days make 400 years. -/
def Date.toDays (d : Date) : Int :=
  let y := if d.month ≤ 2 then d.year - 1 else d.year
  let month := (d.month + 9) % 12
  let dayOfYear : Int := ((153 * month + 2) / 5 + (d.day - 1) : Nat)
  let yearOfEra := y % 400
  y / 400 * 146097 + (yearOfEra * 365 + yearOfEra / 4 - yearOfEra / 100 + dayOfYear) - 719468

def Date.ofDays (days : Int) : Date :=
  let z := days + 719468
  let dayOfEra := (z % 146097).toNat
  let yearOfEra := (dayOfEra - dayOfEra / 1460 + dayOfEra / 36524 - dayOfEra / 146096) / 365
  let dayOfYear := dayOfEra - (365 * yearOfEra + yearOfEra / 4 - yearOfEra / 100)
  let month := (5 * dayOfYear + 2) / 153
  let y : Int := z / 146097 * 400 + yearOfEra
  ⟨if 10 ≤ month then y + 1 else y, if 10 ≤ month then month - 9 else month + 3,
    dayOfYear - (153 * month + 2) / 5 + 1⟩

end ChangeCapture.Calendar
