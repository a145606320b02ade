/-! Text in 16-bit units, high byte first. A high surrogate and the low surrogate after it make one
character; any other surrogate is a fault. -/
namespace ChangeCapture.Text.Utf16

inductive Fault where
  | oddLength (bytes : Nat)
  | unpaired (unit : Nat)
deriving DecidableEq, Repr

def isHigh (u : Nat) : Bool := 0xD800 ≤ u && u < 0xDC00
def isLow (u : Nat) : Bool := 0xDC00 ≤ u && u < 0xE000

def pair (high low : Nat) : Char := Char.ofNat (0x10000 + (high - 0xD800) * 0x400 + (low - 0xDC00))

def decodeUnits : List Nat → Except Fault (List Char)
  | [] => .ok []
  | u :: rest =>
    if isHigh u then
      match rest with
      | [] => .error (.unpaired u)
      | v :: rest =>
        if isLow v then return pair u v :: (← decodeUnits rest) else .error (.unpaired u)
    else if isLow u then .error (.unpaired u)
    else return Char.ofNat u :: (← decodeUnits rest)

/-- Pairs of bytes; a byte left over is dropped. -/
def units : List UInt8 → List Nat
  | high :: low :: rest => (256 * high.toNat + low.toNat) :: units rest
  | _ => []

def decode (bytes : List UInt8) : Except Fault String :=
  if bytes.length % 2 ≠ 0 then .error (.oddLength bytes.length)
  else (decodeUnits (units bytes)).map String.ofList

def encodeChar (c : Char) : List Nat :=
  if c.toNat < 0x10000 then [c.toNat]
  else [0xD800 + (c.toNat - 0x10000) / 0x400, 0xDC00 + (c.toNat - 0x10000) % 0x400]

def encode (text : String) : List UInt8 :=
  (text.toList.flatMap encodeChar).flatMap
    (fun u => [UInt8.ofNat (u / 256), UInt8.ofNat (u % 256)])

end ChangeCapture.Text.Utf16
