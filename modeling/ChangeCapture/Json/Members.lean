import ChangeCapture.Json

/-! Typed values out of JSON. A record is written as an object of its members, or as an array of
them in their declared order; names that are not declared are passed over. -/
namespace ChangeCapture.Json

def string? : Json → Option String
  | .text t => t
  | _ => none

def bool? : Json → Option Bool
  | .bool b => some b
  | _ => none

def nat? (bits : Nat) : Json → Option Nat
  | .number n => (n.int?.filter (fun v => 0 ≤ v ∧ v < 2 ^ bits)).map Int.toNat
  | _ => none

def int? (bits : Nat) : Json → Option Int
  | .number n => n.int?.filter (fun v => -(2 ^ (bits - 1)) ≤ v ∧ v < 2 ^ (bits - 1))
  | _ => none

def list? (read : Json → Option α) : Json → Option (List α)
  | .array items => items.mapM read
  | _ => none

def nullable? (read : Json → Option α) : Json → Option (Option α)
  | .null => some none
  | j => (read j).map some

/-- One of several shapes: its name alone, or its name and what it holds. -/
def variant? : Json → Option (String × Option Json)
  | .text (some name) => some (name, none)
  | .object [(some name, content)] => some (name, some content)
  | _ => none

/-- A name that holds nothing may also be written as holding null. -/
def unit? : Json → Option String
  | j => match variant? j with
    | some (name, none) => some name
    | some (name, some .null) => some name
    | _ => none

structure Members where
  /-- Written as an array. -/
  positional : Bool
  given : List (String × Json)

namespace Members

/-- The declared members of an object, each at most once. -/
def ofObject? (declared : List String) (members : List (Option String × Json)) : Option Members := do
  let named ← members.mapM (fun m => m.1.map (fun name => (name, m.2)))
  let given := named.filter (fun m => declared.contains m.1)
  if (given.map Prod.fst).Nodup then some ⟨false, given⟩ else none

def of? (declared : List String) : Json → Option Members
  | .object members => ofObject? declared members
  | .array items => if items.length ≤ declared.length then some ⟨true, declared.zip items⟩ else none
  | _ => none

def find (m : Members) (name : String) : Option Json := m.given.lookup name

def required (m : Members) (name : String) (read : Json → Option α) : Option α :=
  (m.find name).bind read

/-- May be null, or left out of an object. -/
def optional (m : Members) (name : String) (read : Json → Option α) : Option (Option α) :=
  match m.find name with
  | some j => nullable? read j
  | none => if m.positional then none else some none

/-- May be left out, but is not null. -/
def defaulted (m : Members) (name : String) (default : α) (read : Json → Option α) : Option α :=
  match m.find name with
  | some j => read j
  | none => some default

end Members

end ChangeCapture.Json
