import ChangeCapture.Decimal.Positional
import ChangeCapture.Text.Numeral

/-! Exact decimals of any size. -/
namespace ChangeCapture.Decimal

/-- `unscaled * 10^-scale`. -/
structure Wide where
  unscaled : Int
  scale : Int
deriving DecidableEq, Repr

namespace Wide

def text (d : Wide) : String := signed (d.unscaled < 0) (positional d.unscaled.natAbs d.scale)

/-- Digits with underscores between them. -/
def magnitude? (cs : List Char) : Option Nat :=
  let body := match cs with
    | '+' :: rest => if rest.head? = some '+' then cs else rest
    | _ => cs
  if body.head? = some '_' then none else Text.natOfDigits? (body.filter (· ≠ '_'))

def unscaled? : List Char → Option Int
  | '-' :: rest => if rest.head? = some '+' then none else (magnitude? rest).map (fun n => -(n : Int))
  | cs => (magnitude? cs).map Int.ofNat

/-- Digits with an optional sign, point and exponent. -/
def ofText? (text : String) : Option Wide := do
  let (base, exponent) := Text.cut (fun c => c = 'e' || c = 'E') text.toList
  let exponent ← match exponent with
    | none => some 0
    | some ('+' :: rest) => Text.signed? 64 rest
    | some rest => Text.signed? 64 rest
  let (whole, places) := Text.cut (· = '.') base
  let places := places.getD []
  let unscaled ← unscaled? (whole ++ places)
  return ⟨unscaled, places.length - exponent⟩

end Wide

end ChangeCapture.Decimal
