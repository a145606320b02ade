import ChangeCapture.Decimal.Binary
import ChangeCapture.Decimal.Positional

/-! The fewest decimal digits that read back to a binary number. The reals that round to `m * 2^q`
form an interval, its ends included exactly when `m` is even; the first decimal grid with a point in
it gives the digits, of two points the nearer, and of two equally near the larger. -/
namespace ChangeCapture.Decimal.Shortest

/-- Compares `a * 10^i` with `n * 2^j`. -/
def compareScaled (a : Nat) (i : Int) (n : Nat) (j : Int) : Ordering :=
  compare (a * 10 ^ i.toNat * 2 ^ (-j).toNat) (n * 2 ^ j.toNat * 10 ^ (-i).toNat)

/-- Whether `digits * 10^exponent` is read back as `m * 2^q`. The gap below a power of two is half
the gap above it, unless the numbers below are spaced evenly. -/
def readsBack (f : BinaryFormat) (m : Nat) (q : Int) (digits : Nat) (exponent : Int) : Bool :=
  let narrow := m = 2 ^ (f.precision - 1) ∧ f.least < q
  let lower := compareScaled digits exponent (if narrow then 4 * m - 1 else 4 * m - 2) (q - 2)
  let upper := compareScaled digits exponent (4 * m + 2) (q - 2)
  let ends := m % 2 = 0
  (lower = .gt ∨ (ends ∧ lower = .eq)) ∧ (upper = .lt ∨ (ends ∧ upper = .eq))

/-- The least `k` with `m * 2^q < 10^k`. -/
def magnitude (m : Nat) (q : Int) : Int :=
  let num := m * 2 ^ q.toNat
  let den := 2 ^ (-q).toNat
  if den ≤ num then (toString (num / den)).length
  else
    let above : Int := 1 - (toString (den / num)).length
    if compareScaled 1 above m q = .gt then above else above + 1

/-- The point of the grid `10^exponent` that stands for `m * 2^q`, if one does. -/
def onGrid (f : BinaryFormat) (m : Nat) (q exponent : Int) : Option Nat :=
  let below := m * 2 ^ q.toNat * 10 ^ (-exponent).toNat / (2 ^ (-q).toNat * 10 ^ exponent.toNat)
  match readsBack f m q below exponent, readsBack f m q (below + 1) exponent with
  | true, true =>
    some (if compareScaled (2 * below + 1) exponent (2 * m) q = .gt then below else below + 1)
  | true, false => some below
  | false, true => some (below + 1)
  | false, false => none

/-- Seventeen digits tell any two numbers of the formats apart. -/
def maxDigits : Nat := 17

def dropZeros (digits : Nat) (exponent : Int) : Nat × Int :=
  if h : digits ≠ 0 ∧ digits % 10 = 0 then dropZeros (digits / 10) (exponent + 1)
  else (digits, exponent)
termination_by digits
decreasing_by omega

/-- Digits and exponent of `m * 2^q`, for `m` not zero. -/
def digits (f : BinaryFormat) (m : Nat) (q : Int) : Nat × Int :=
  let top := magnitude m q
  let found := (List.range maxDigits).findSome? (fun n =>
    let exponent := top - (n + 1 : Nat)
    (onGrid f m q exponent).map (fun d => (d, exponent)))
  let (d, exponent) := found.getD (m * 2 ^ q.toNat * 5 ^ (-q).toNat, min q 0)
  dropZeros d exponent

end ChangeCapture.Decimal.Shortest

namespace ChangeCapture.Decimal

/-- Binary numbers are written in full with the fewest digits that read back. -/
def Binary.text (f : BinaryFormat) : Binary → String
  | .nan => "NaN"
  | .infinite negative => signed negative "inf"
  | .finite negative m q =>
    if m = 0 then signed negative "0"
    else
      let (digits, exponent) := Shortest.digits f m q
      signed negative (positional digits (-exponent))

end ChangeCapture.Decimal
