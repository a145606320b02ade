import ChangeCapture.Failure
import ChangeCapture.Field

/-! Numbers in base one hundred. The first byte of an image holds sign and exponent, every other byte
a digit: one more than the digit in a positive number, and 101 less the digit in a negative one, which
may end in a byte of 102. -/
namespace ChangeCapture

/-- `digits * 10^-scale` under its sign. -/
structure ExactNumber where
  negative : Bool
  /-- In base ten, as they are written. -/
  digits : String
  scale : Int
deriving DecidableEq, Repr

namespace ExactNumber

def zero : ExactNumber := ⟨false, "0", 0⟩

/-- Digits without the zeros in front. -/
def trimStart (cs : List Char) : List Char := cs.dropWhile (· = '0')

/-- Digits without the zeros at the end. -/
def trimEnd (cs : List Char) : List Char := (cs.reverse.dropWhile (· = '0')).reverse

def zeroHead : UInt8 := 0x80
def positiveBias : Int := 0xC1
def negativeBias : Int := 0x3E
def terminator : UInt8 := 102

/-- The digit that a byte stands for. -/
def digit? (negative : Bool) (byte : UInt8) : Except ImageFault Nat :=
  let digit : Int := if negative then 101 - byte.toNat else byte.toNat - 1
  if 0 ≤ digit ∧ digit < 100 then .ok digit.toNat else .error (.digit byte)

def dropTerminator (bytes : List UInt8) : List UInt8 :=
  if bytes.getLast? = some terminator then bytes.dropLast else bytes

/-- A digit in base one hundred is two in base ten. -/
def twoDigits (digit : Nat) : List Char := (Text.padded 2 (toString digit)).toList

/-- The number of some digits in base one hundred. Zeros that go at the end move the point, those in
front do not; a number of zeros alone is zero. -/
def ofDigits (negative : Bool) (exponent : Int) (digits : List Nat) : ExactNumber :=
  let written := digits.flatMap twoDigits
  let ended := trimEnd written
  let scale := 2 * ((digits.length : Int) - 1 - exponent) - ((written.length : Int) - ended.length)
  let trimmed := trimStart ended
  if trimmed.isEmpty then zero else ⟨negative, String.ofList trimmed, scale⟩

def decode : List UInt8 → Except ImageFault ExactNumber
  | [] => .error .empty
  | head :: bytes =>
    if head = zeroHead then .ok zero
    else
      let negative := head < 0x80
      let exponent := if negative then negativeBias - head.toNat else head.toNat - positiveBias
      let bytes := if negative then dropTerminator bytes else bytes
      if bytes.isEmpty then .error .empty
      else (bytes.mapM (digit? negative)).map (ofDigits negative exponent)

def isInteger (n : ExactNumber) : Bool := n.scale ≤ 0

def text (n : ExactNumber) : String := Decimal.signed n.negative (Decimal.placed n.digits n.scale)

/-- The digits of a number without places. -/
def integerDigits? (n : ExactNumber) : Option String :=
  if n.isInteger then some (n.digits.pushn '0' (-n.scale).toNat) else none

def long? (n : ExactNumber) : Option Int :=
  n.integerDigits?.bind (fun digits => Text.signed? 64 (Decimal.signed n.negative digits).toList)

/-- The same value as a fixed decimal, if it is one without rounding. -/
def fixed? (n : ExactNumber) : Option Decimal.Fixed :=
  if 28 < n.scale then none
  else
    let (digits, scale) := match n.integerDigits? with
      | some digits => (digits, 0)
      | none => (n.digits, n.scale.toNat)
    (Text.signed? 128 (Decimal.signed n.negative digits).toList).bind
      (fun mantissa => Decimal.Fixed.of? (mantissa < 0) mantissa.natAbs scale)

/-- The number that the digits are. -/
def coefficient (n : ExactNumber) : Nat := Text.natOfDigits n.digits.toList

def signedValue (negative : Bool) (n : Nat) : Int := if negative then -n else n

/-- What is read of the number written with an exponent. -/
def wide (n : ExactNumber) : Decimal.Wide := ⟨signedValue n.negative n.coefficient, n.scale⟩

/-- A fixed decimal where the value is one. -/
def field (n : ExactNumber) : Field :=
  match n.fixed? with
  | some d => .decimal d
  | none => .bigDecimal n.wide

end ExactNumber

end ChangeCapture
