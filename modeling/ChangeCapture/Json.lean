import ChangeCapture.Decimal.Binary
import ChangeCapture.Text.Numeral

/-! JSON values as they are written: numbers keep their digits, members their order and repetitions.
A text holds `none` when an escape in it names half of a surrogate pair, which no string can hold. -/
namespace ChangeCapture

structure JsonNumber where
  negative : Bool
  whole : List Char
  fraction : Option (List Char)
  exponent : Option Int
deriving DecidableEq, Repr

inductive Json where
  | null
  | bool (value : Bool)
  | number (value : JsonNumber)
  | text (value : Option String)
  | array (items : List Json)
  | object (members : List (Option String × Json))

namespace JsonNumber

/-- Whole numbers are written without a point or an exponent, and zero without a sign. -/
def int? (n : JsonNumber) : Option Int :=
  if n.fraction.isSome ∨ n.exponent.isSome then none
  else
    let value := Text.natOfDigits n.whole
    if n.negative then (if value = 0 then none else some (-(value : Int))) else some value

/-- Whole numbers that are taken as such: those of 64 bits. -/
def word? (n : JsonNumber) : Option Int :=
  n.int?.filter (fun v => -(2 ^ 63) ≤ v ∧ v < 2 ^ 64)

/-- Digits are taken up as long as they fit 64 bits. Of the whole part the first that does not fit
and all after it only count as places. -/
def takeWhole (significand : Nat) : List Char → Nat × Nat
  | [] => (significand, 0)
  | c :: cs =>
    let next := 10 * significand + Text.digitValue c
    if next < 2 ^ 64 then takeWhole next cs else (significand, (c :: cs).length)

/-- Of the fraction the first that does not fit and all after it are dropped. -/
def takeFraction (significand places : Nat) : List Char → Nat × Nat
  | [] => (significand, places)
  | c :: cs =>
    let next := 10 * significand + Text.digitValue c
    if next < 2 ^ 64 then takeFraction next (places + 1) cs else (significand, places)

def significand (n : JsonNumber) : Nat × Int :=
  let (whole, grown) := takeWhole 0 n.whole
  let (all, places) := takeFraction whole 0 (n.fraction.getD [])
  (all, grown - places + n.exponent.getD 0)

/-- The pattern nearest to `bits * 10^exponent` for `exponent` up to 308, the power itself rounded. -/
def scaled (bits : Nat) (exponent : Int) : Nat :=
  let f := Decimal.BinaryFormat.double
  let power := Decimal.Binary.ofBits f (Decimal.nearest f (10 ^ exponent.natAbs) 1)
  match Decimal.Binary.ofBits f bits, power with
  | .finite _ m q, .finite _ p r =>
    if 0 ≤ exponent then
      Decimal.nearest f (m * p * 2 ^ (q + r).toNat) (2 ^ (-(q + r)).toNat)
    else Decimal.nearest f (m * 2 ^ (q - r).toNat) (p * 2 ^ (r - q).toNat)
  | _, _ => bits

/-- Powers beyond the largest are divided out in steps. -/
def scaledFrom (bits : Nat) (exponent : Int) : Option Nat :=
  if exponent.natAbs ≤ 308 then
    let result := scaled bits exponent
    if result < Decimal.BinaryFormat.double.infinity then some result else none
  else if bits = 0 then some 0
  else if 0 ≤ exponent then none
  else scaledFrom (scaled bits (-308)) (exponent + 308)
termination_by exponent.natAbs
decreasing_by omega

/-- The double that the number is taken for: its digits, then its power of ten, each rounded once. -/
def toDouble? (n : JsonNumber) : Option Nat :=
  let f := Decimal.BinaryFormat.double
  let signBit := if n.negative then 2 ^ 63 else 0
  match n.word? with
  | some v => some (signBit + Decimal.nearest f v.natAbs 1)
  | none =>
    let (digits, exponent) := n.significand
    (scaledFrom (Decimal.nearest f digits 1) exponent).map (signBit + ·)

/-- A word is rounded once, any other number by way of the double. -/
def toSingle? (n : JsonNumber) : Option Nat :=
  let f := Decimal.BinaryFormat.single
  let signBit := if n.negative then 2 ^ 31 else 0
  match n.word? with
  | some v => some (signBit + Decimal.nearest f v.natAbs 1)
  | none => n.toDouble?.bind (fun bits =>
      match Decimal.Binary.ofBits .double bits with
      | .finite _ m q =>
        some (signBit + Decimal.nearest f (m * 2 ^ q.toNat) (2 ^ (-q).toNat))
      | _ => none)

end JsonNumber

namespace Json

/-- Whether the value can be kept without knowing its type: whole texts, numbers within the doubles,
and no more than `depth` arrays and objects inside each other. -/
def isPlain (depth : Nat) : Json → Bool
  | .null | .bool _ => true
  | .number n => n.toDouble?.isSome
  | .text t => t.isSome
  | .array items =>
    match depth with
    | 0 => false
    | d + 1 => items.attach.all (fun ⟨j, _⟩ => isPlain d j)
  | .object members =>
    match depth with
    | 0 => false
    | d + 1 => members.attach.all (fun ⟨m, _⟩ => m.1.isSome && isPlain d m.2)
termination_by depth

end Json

end ChangeCapture
