import ChangeCapture.Json
import ChangeCapture.Text.Hex

/-! Writing JSON without blanks: values from what they stand for, and their text. -/
namespace ChangeCapture

def JsonNumber.render (n : JsonNumber) : String :=
  (if n.negative then "-" else "") ++ String.ofList n.whole ++
    (n.fraction.elim "" (fun digits => "." ++ String.ofList digits)) ++
    (n.exponent.elim "" (fun e => "e" ++ toString e))

namespace Json

def ofInt (n : Int) : Json := .number ⟨n < 0, Nat.toDigits 10 n.natAbs, none, none⟩
def ofNat (n : Nat) : Json := ofInt n
def ofString (s : String) : Json := .text (some s)
def ofMembers (members : List (String × Json)) : Json :=
  .object (members.map (fun m => (some m.1, m.2)))

def ofOption (write : α → Json) : Option α → Json
  | some a => write a
  | none => .null

def escaped (c : Char) : String :=
  if c = '"' then "\\\""
  else if c = '\\' then "\\\\"
  else if c.toNat < 0x20 then "\\u" ++ Text.padded 4 (Text.hexLower c.toNat)
  else c.toString

/-- A text that no string can hold is written as half of a pair. -/
def quoted : Option String → String
  | some s => "\"" ++ String.join (s.toList.map escaped) ++ "\""
  | none => "\"\\ud800\""

def render : Json → String
  | .null => "null"
  | .bool b => if b then "true" else "false"
  | .number n => n.render
  | .text t => quoted t
  | .array items => "[" ++ ",".intercalate (items.attach.map (fun ⟨j, _⟩ => render j)) ++ "]"
  | .object members =>
    "\x7b" ++ ",".intercalate
      (members.attach.map (fun ⟨(name, j), _⟩ => quoted name ++ ":" ++ render j)) ++ "\x7d"
termination_by j => sizeOf j
decreasing_by
  · have := List.sizeOf_lt_of_mem ‹j ∈ items›
    simp only [Json.array.sizeOf_spec]
    omega
  · have := List.sizeOf_lt_of_mem ‹(name, j) ∈ members›
    simp only [Prod.mk.sizeOf_spec] at this
    simp only [Json.object.sizeOf_spec]
    omega

end Json

end ChangeCapture
