/-! Numbers and bytes in base sixteen, and numbers padded with zeros. -/
namespace ChangeCapture.Text

/-- Zeros in front up to `width` characters. -/
def padded (width : Nat) (text : String) : String :=
  "".pushn '0' (width - text.length) ++ text

def hexLower (n : Nat) : String := String.ofList (Nat.toDigits 16 n)
def hexUpper (n : Nat) : String := (hexLower n).toUpper

def hexOfBytes (bytes : List UInt8) : String :=
  String.join (bytes.map (fun b => padded 2 (hexUpper b.toNat)))

def digitOfHex? (c : Char) : Option Nat :=
  if '0' ≤ c ∧ c ≤ '9' then some (c.toNat - 48)
  else if 'a' ≤ c ∧ c ≤ 'f' then some (c.toNat - 87)
  else if 'A' ≤ c ∧ c ≤ 'F' then some (c.toNat - 55)
  else none

/-- Reads pairs of hexadecimal digits. -/
def bytesOfHex? : List Char → Option (List UInt8)
  | [] => some []
  | [_] => none
  | a :: b :: rest => do
    let high ← digitOfHex? a
    let low ← digitOfHex? b
    return UInt8.ofNat (16 * high + low) :: (← bytesOfHex? rest)

end ChangeCapture.Text
