import ChangeCapture.Calendar
import ChangeCapture.Power
import ChangeCapture.Text.Hex

/-! Points of time in UTC. A leap second is second 59 with a billion nanoseconds or more. -/
namespace ChangeCapture

structure TimeFields where
  date : Calendar.Date
  hour : Nat
  minute : Nat
  second : Nat
  nanos : Nat
deriving DecidableEq, Repr

def TimeFields.Valid (t : TimeFields) : Prop :=
  t.date.Valid ∧ t.hour < 24 ∧ t.minute < 60 ∧ t.second < 60 ∧
    (t.nanos < 1000000000 ∨ (t.second = 59 ∧ t.nanos < 2000000000))

instance (t : TimeFields) : Decidable t.Valid := inferInstanceAs (Decidable (_ ∧ _))

structure Timestamp extends TimeFields where
  valid : toTimeFields.Valid
deriving DecidableEq, Repr

namespace Timestamp

def of? (t : TimeFields) : Option Timestamp :=
  if h : t.Valid then some ⟨t, h⟩ else none

/-- The fields from the most to the least significant. -/
def key (t : Timestamp) : List Int :=
  [t.date.year, t.date.month, t.date.day, t.hour, t.minute, t.second, t.nanos]

/-- Earlier in time. -/
def before (t u : Timestamp) : Bool := compare t.key u.key = .lt

def earlier (t u : Timestamp) : Timestamp := if u.before t then u else t
def later (t u : Timestamp) : Timestamp := if t.before u then u else t

/-- The years that a timestamp counted in seconds may fall into. -/
def minYear : Int := -262143
def maxYear : Int := 262142

def ofSeconds? (seconds : Int) (nanos : Nat) : Option Timestamp :=
  let date := Calendar.Date.ofDays (seconds / 86400)
  let rest := (seconds % 86400).toNat
  if minYear ≤ date.year ∧ date.year ≤ maxYear then
    of? ⟨date, rest / 3600, rest / 60 % 60, rest % 60, nanos⟩
  else none

/-- Seconds from 1970 as the log writes them, in 64 bits of two's complement. -/
def ofUnix? (seconds : Nat) : Option Timestamp := ofSeconds? (Int.bmod seconds (2 ^ 64)) 0

/-- Four digits for the years 0 to 9999; any other year has a sign and at least four digits. -/
def yearText (year : Int) : String :=
  let digits := Text.padded 4 (toString year.natAbs)
  if 0 ≤ year ∧ year ≤ 9999 then digits else (if year < 0 then "-" else "+") ++ digits

/-- The fewest of 0, 3, 6 or 9 digits that lose nothing. -/
def fractionText (nanos : Nat) : String :=
  if nanos = 0 then ""
  else if nanos % 1000000 = 0 then "." ++ Text.padded 3 (toString (nanos / 1000000))
  else if nanos % 1000 = 0 then "." ++ Text.padded 6 (toString (nanos / 1000))
  else "." ++ Text.padded 9 (toString nanos)

def text (t : Timestamp) : String :=
  let two n := Text.padded 2 (toString n)
  let leap := 1000000000 ≤ t.nanos
  let second := if leap then t.second + 1 else t.second
  let nanos := if leap then t.nanos - 1000000000 else t.nanos
  s!"{yearText t.date.year}-{two t.date.month}-{two t.date.day}" ++
    s!"T{two t.hour}:{two t.minute}:{two second}{fractionText nanos}Z"

end Timestamp

end ChangeCapture
