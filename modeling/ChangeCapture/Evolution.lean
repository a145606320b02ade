import ChangeCapture.Column
import ChangeCapture.Failure

/-! How the columns of a table change from one version to the next. A column once described keeps its
name and type; columns come and go only at the end, and those are nullable. -/
namespace ChangeCapture

inductive Evolution where
  | unchanged
  | extended
  | truncated
deriving DecidableEq, Repr

def Evolution.ofLengths (cached new : Nat) : Evolution :=
  if new = cached then .unchanged else if cached < new then .extended else .truncated

namespace Column

/-- Whether one version may follow the other; a placeholder goes with anything. -/
def compatible (old new : Column) : Bool :=
  old.isPlaceholder || new.isPlaceholder || old.signature = new.signature

/-- A placeholder leaves what is known. -/
def succeed (old new : Column) : Column := if new.isPlaceholder then old else new

def loosened (c : Column) : Column := { c with nullable := true }

end Column

/-- Refuses the first column that changed its name or type. -/
def checkColumns (table : String) : List Column → List Column → Except Failure Unit
  | old :: cached, new :: columns =>
    if old.compatible new then checkColumns table cached columns
    else .error (.incompatibleDdl table old.id old.described new.described)
  | _, _ => .ok ()

/-- The columns of both versions, the longer one's last ones nullable. -/
def reconcileColumns : List Column → List Column → List Column
  | [], columns => columns.map Column.loosened
  | cached, [] => cached.map Column.loosened
  | old :: cached, new :: columns => old.succeed new :: reconcileColumns cached columns

def evolveColumns (table : String) (cached columns : List Column) :
    Except Failure (List Column × Evolution) := do
  checkColumns table cached columns
  return (reconcileColumns cached columns, Evolution.ofLengths cached.length columns.length)

end ChangeCapture
