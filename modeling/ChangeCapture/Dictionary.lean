import ChangeCapture.Evolution
import ChangeCapture.Registry

/-! Compact table definitions by table id: enough to read a change that does not describe its
columns. -/
namespace ChangeCapture

structure Dictionary where
  tables : Registry Nat Table
deriving DecidableEq, Repr

namespace Dictionary

def empty : Dictionary := ⟨∅⟩

def get? (d : Dictionary) (id : Nat) : Option Table := d.tables.get? id
def size (d : Dictionary) : Nat := d.tables.size
def isEmpty (d : Dictionary) : Bool := d.tables.isEmpty

def put (d : Dictionary) (t : Table) : Dictionary := ⟨d.tables.insert t.id t⟩

/-- Takes in a definition, and says whether the entry changed. -/
def apply (d : Dictionary) (t : Table) : Except Failure (Dictionary × Bool) :=
  match d.get? t.id with
  | none => .ok (d.put t, true)
  | some cached => do
    let (columns, evolution) ← evolveColumns t.qualifiedName cached.columns t.columns
    if evolution = .unchanged ∧ columns = cached.columns ∧ cached.owner = t.owner ∧
        cached.name = t.name then
      return (d, false)
    else return (d.put (t.withColumns columns), true)

/-- Fails as `apply` would, and changes nothing. -/
def check (d : Dictionary) (t : Table) : Except Failure Unit :=
  match d.get? t.id with
  | some cached => checkColumns t.qualifiedName cached.columns t.columns
  | none => .ok ()

def markKeyColumns (d : Dictionary) (id : Nat) (ordinals : List Nat) : Dictionary :=
  ⟨d.tables.modify id (fun t => t.markKeyColumns ordinals)⟩

/-- Every entry of `other` replaces what is known of its table. -/
def merge (d other : Dictionary) : Dictionary := ⟨d.tables.extend other.tables⟩

end Dictionary

end ChangeCapture
