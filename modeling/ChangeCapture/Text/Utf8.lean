/-! Text in bytes. `decode` accepts well-formed UTF-8 only; what it refuses it refuses at the first
byte that no well-formed text could have there, and says how many bytes are spoilt. -/
namespace ChangeCapture.Text.Utf8

structure Fault where
  /-- Bytes of well-formed text before the fault. -/
  index : Nat
  /-- How many bytes are no part of any text; `none` when the text only stops too early. -/
  length : Option Nat
deriving DecidableEq, Repr

def Fault.message : Fault → String
  | ⟨index, some n⟩ => s!"invalid utf-8 sequence of {n} bytes from index {index}"
  | ⟨index, none⟩ => s!"incomplete utf-8 byte sequence from index {index}"

def isTail (b : UInt8) : Bool := 0x80 ≤ b && b ≤ 0xBF

/-- What may follow the first byte of a three-byte character. -/
def isSecondOfThree (lead b : UInt8) : Bool :=
  if lead = 0xE0 then 0xA0 ≤ b && b ≤ 0xBF
  else if lead = 0xED then 0x80 ≤ b && b ≤ 0x9F
  else isTail b

/-- What may follow the first byte of a four-byte character. -/
def isSecondOfFour (lead b : UInt8) : Bool :=
  if lead = 0xF0 then 0x90 ≤ b && b ≤ 0xBF
  else if lead = 0xF4 then 0x80 ≤ b && b ≤ 0x8F
  else isTail b

def low (b : UInt8) : Nat := b.toNat % 64

def decodeFrom (index : Nat) : List UInt8 → Except Fault (List Char)
  | [] => .ok []
  | a :: rest =>
    if a < 0x80 then
      return Char.ofNat a.toNat :: (← decodeFrom (index + 1) rest)
    else if 0xC2 ≤ a && a ≤ 0xDF then
      match rest with
      | [] => .error ⟨index, none⟩
      | b :: rest =>
        if !isTail b then .error ⟨index, some 1⟩
        else return Char.ofNat (a.toNat % 32 * 64 + low b) :: (← decodeFrom (index + 2) rest)
    else if 0xE0 ≤ a && a ≤ 0xEF then
      match rest with
      | [] => .error ⟨index, none⟩
      | b :: rest =>
        if !isSecondOfThree a b then .error ⟨index, some 1⟩
        else match rest with
        | [] => .error ⟨index, none⟩
        | c :: rest =>
          if !isTail c then .error ⟨index, some 2⟩
          else return Char.ofNat ((a.toNat % 16 * 64 + low b) * 64 + low c) ::
            (← decodeFrom (index + 3) rest)
    else if 0xF0 ≤ a && a ≤ 0xF4 then
      match rest with
      | [] => .error ⟨index, none⟩
      | b :: rest =>
        if !isSecondOfFour a b then .error ⟨index, some 1⟩
        else match rest with
        | [] => .error ⟨index, none⟩
        | c :: rest =>
          if !isTail c then .error ⟨index, some 2⟩
          else match rest with
          | [] => .error ⟨index, none⟩
          | d :: rest =>
            if !isTail d then .error ⟨index, some 3⟩
            else return Char.ofNat (((a.toNat % 8 * 64 + low b) * 64 + low c) * 64 + low d) ::
              (← decodeFrom (index + 4) rest)
    else .error ⟨index, some 1⟩

def decode (bytes : List UInt8) : Except Fault String :=
  (decodeFrom 0 bytes).map String.ofList

end ChangeCapture.Text.Utf8
