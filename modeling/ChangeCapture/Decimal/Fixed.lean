import ChangeCapture.Decimal.Positional
import ChangeCapture.Text.Numeral

/-! Exact decimals of bounded size: at most 96 bits of mantissa and 28 places. -/
namespace ChangeCapture.Decimal

/-- `mantissa * 10^-scale` under its sign; zero has no sign. -/
structure Fixed where
  negative : Bool
  mantissa : Nat
  scale : Nat
  mantissa_lt : mantissa < 2 ^ 96
  scale_le : scale ≤ 28
  zero_positive : mantissa = 0 → negative = false
deriving DecidableEq, Repr

namespace Fixed

def of? (negative : Bool) (mantissa scale : Nat) : Option Fixed :=
  if h : mantissa < 2 ^ 96 ∧ scale ≤ 28 then
    some ⟨negative && mantissa ≠ 0, mantissa, scale, h.1, h.2, fun z => by simp [z]⟩
  else none

def text (d : Fixed) : String := signed d.negative (positional d.mantissa d.scale)

/-- What is left when the digit `next` and all after it are dropped: a five rounds up. -/
def rounded (mantissa scale : Nat) (next : Char) : Option (Nat × Nat) :=
  if next.isDigit ∨ next = '_' ∨ next = '.' then
    if next.isDigit ∧ 5 ≤ Text.digitValue next then
      if mantissa + 1 < 2 ^ 96 then some (mantissa + 1, scale)
      else if scale = 0 then none
      else some ((mantissa + 5) / 10, scale - 1)
    else some (mantissa, scale)
  else none

/-- Digits that no longer fit behind the point are dropped with rounding; digits that no longer fit
before it are refused. Underscores may stand after a digit. -/
def scan (point seen : Bool) (mantissa scale : Nat) : List Char → Option (Nat × Nat)
  | [] => if seen then some (mantissa, scale) else none
  | c :: cs =>
    if point && 28 ≤ scale then rounded mantissa scale c
    else if c.isDigit then
      let next := 10 * mantissa + Text.digitValue c
      if next < 2 ^ 96 then scan point true next (if point then scale + 1 else scale) cs
      else if point then rounded mantissa scale c
      else none
    else if c = '.' && !point then scan true seen mantissa scale cs
    else if c = '_' && seen then scan point true mantissa scale cs
    else none

def ofPlain? (cs : List Char) : Option Fixed := do
  let (negative, body) := match cs with
    | '-' :: rest => (true, rest)
    | '+' :: rest => (false, rest)
    | _ => (false, cs)
  let (mantissa, scale) ← scan false false 0 0 body
  of? negative mantissa scale

/-- An exponent moves the point; moved to the right past all places it leaves a whole number. -/
def ofScientific? (cs : List Char) : Option Fixed := do
  let (base, exponent) := Text.cut (fun c => c = 'e' || c = 'E') cs
  let exponent ← exponent
  let d ← ofPlain? base
  match exponent with
  | '-' :: digits =>
    let n ← Text.unsigned? 32 digits
    of? d.negative d.mantissa (d.scale + n)
  | digits =>
    let n ← Text.unsigned? 32 digits
    if n ≤ d.scale then of? d.negative d.mantissa (d.scale - n)
    else if n ≤ 28 then of? d.negative (d.mantissa * 10 ^ (n - d.scale)) 0
    else none

def ofText? (text : String) : Option Fixed :=
  ofPlain? text.toList <|> ofScientific? text.toList

end Fixed

end ChangeCapture.Decimal
