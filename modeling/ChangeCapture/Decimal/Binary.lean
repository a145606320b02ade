import ChangeCapture.Power

/-! Binary floating point by its bits: what a pattern means, and the pattern nearest to a quotient. -/
namespace ChangeCapture.Decimal

/-- A format is given by the bits of its significand, the leading one included, and of its exponent. -/
structure BinaryFormat where
  precision : Nat
  exponentBits : Nat
deriving DecidableEq, Repr

namespace BinaryFormat

def single : BinaryFormat := ⟨24, 8⟩
def double : BinaryFormat := ⟨53, 11⟩

/-- The exponent of the least significant bit of the smallest numbers. -/
def least (f : BinaryFormat) : Int := 3 - 2 ^ (f.exponentBits - 1) - f.precision

/-- The pattern of infinity, above all patterns of numbers. -/
def infinity (f : BinaryFormat) : Nat := (2 ^ f.exponentBits - 1) * 2 ^ (f.precision - 1)

end BinaryFormat

/-- `finite negative m q` is `m * 2^q` under its sign. -/
inductive Binary where
  | nan
  | infinite (negative : Bool)
  | finite (negative : Bool) (m : Nat) (q : Int)
deriving DecidableEq, Repr

def Binary.ofBits (f : BinaryFormat) (bits : Nat) : Binary :=
  let hidden := 2 ^ (f.precision - 1)
  let negative := bits / hidden / 2 ^ f.exponentBits % 2 = 1
  let e := bits / hidden % 2 ^ f.exponentBits
  let m := bits % hidden
  if e + 1 = 2 ^ f.exponentBits then
    if m = 0 then .infinite negative else .nan
  else if e = 0 then .finite negative m f.least
  else .finite negative (hidden + m) (f.least + (e - 1 : Nat))

/-- The quotient to the nearest whole number, a half to the even one. -/
def roundHalfEven (num den : Nat) : Nat :=
  let q := num / den
  let twice := 2 * (num % den)
  if twice < den ∨ (twice = den ∧ q % 2 = 0) then q else q + 1

/-- The pattern of the number nearest to `num / den`, or of infinity when that is too large. -/
def nearest (f : BinaryFormat) (num den : Nat) : Nat :=
  if num = 0 then 0 else
  let guess : Int := (Nat.log2 num : Int) - Nat.log2 den
  let atLeast := den * 2 ^ guess.toNat ≤ num * 2 ^ (-guess).toNat
  let top := if atLeast then guess else guess - 1
  let q := max f.least (top - (f.precision - 1 : Nat))
  let m := roundHalfEven (num * 2 ^ (-q).toNat) (den * 2 ^ q.toNat)
  min f.infinity ((q - f.least).toNat * 2 ^ (f.precision - 1) + m)

end ChangeCapture.Decimal
