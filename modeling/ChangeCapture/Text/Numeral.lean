import ChangeCapture.Power

/-! Whole numbers in ASCII digits, with an optional sign. -/
namespace ChangeCapture.Text

def digitValue (c : Char) : Nat := c.toNat - 48

def natOfDigits (cs : List Char) : Nat := cs.foldl (fun n c => 10 * n + digitValue c) 0

def natOfDigits? (cs : List Char) : Option Nat :=
  if cs ≠ [] ∧ cs.all Char.isDigit then some (natOfDigits cs) else none

/-- A plus sign may stand in front. -/
def nat? : List Char → Option Nat
  | '+' :: cs => natOfDigits? cs
  | cs => natOfDigits? cs

/-- A plus or minus sign may stand in front. -/
def int? : List Char → Option Int
  | '-' :: cs => (natOfDigits? cs).map (fun n => -(n : Int))
  | cs => (nat? cs).map Int.ofNat

/-- A number of `bits` bits in two's complement. -/
def signed? (bits : Nat) (cs : List Char) : Option Int :=
  (int? cs).filter (fun n => -(2 ^ (bits - 1)) ≤ n ∧ n < 2 ^ (bits - 1))

def unsigned? (bits : Nat) (cs : List Char) : Option Nat :=
  (nat? cs).filter (· < 2 ^ bits)

/-- The characters before the first one that `p` holds of, and those after it. -/
def cut (p : Char → Bool) (cs : List Char) : List Char × Option (List Char) :=
  match cs.dropWhile (fun c => !p c) with
  | [] => (cs, none)
  | _ :: rest => (cs.takeWhile (fun c => !p c), some rest)

end ChangeCapture.Text
