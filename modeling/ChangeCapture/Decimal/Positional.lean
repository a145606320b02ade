import ChangeCapture.Text.Hex

/-! Decimal numbers written in full, without an exponent. -/
namespace ChangeCapture.Decimal

/-- Decimal digits with the point moved `scale` places to the left: every place down to `scale` is
shown, and a zero stands before the point of a fraction. -/
def placed (digits : String) (scale : Int) : String :=
  if scale ≤ 0 then digits.pushn '0' (-scale).toNat
  else
    let places := scale.toNat
    let shown := (Text.padded (places + 1) digits).toList
    String.ofList (shown.take (shown.length - places)) ++ "." ++
      String.ofList (shown.drop (shown.length - places))

/-- The text of `coefficient * 10^-scale`. -/
def positional (coefficient : Nat) (scale : Int) : String := placed (toString coefficient) scale

def signed (negative : Bool) (text : String) : String := if negative then "-" ++ text else text

end ChangeCapture.Decimal
