import ChangeCapture.Column
import ChangeCapture.EntryKind
import ChangeCapture.Field
import ChangeCapture.Position

/-! Changes to the rows of tables. A row record has a slot for every column; an image vector keeps the
images apart as the log has them. -/
namespace ChangeCapture

inductive ChangeAction where
  | insert
  | update
  | delete
  | lobWrite
  | lobErase
  | lobTrim
  | ddl
  | noOp
  | unknown
deriving DecidableEq, Repr, Inhabited

namespace ChangeAction

def ofKind : EntryKind → ChangeAction
  | .insert => insert
  | .update => update
  | .delete => delete
  | .lobWrite => lobWrite
  | .lobErase => lobErase
  | .lobTrim => lobTrim
  | .ddl => ddl
  | .noOp => noOp
  | _ => unknown

def kind : ChangeAction → EntryKind
  | insert => .insert
  | update => .update
  | delete => .delete
  | lobWrite => .lobWrite
  | lobErase => .lobErase
  | lobTrim => .lobTrim
  | ddl => .ddl
  | noOp => .noOp
  | unknown => .unknown

theorem kind_ofKind {k : EntryKind} (h : k.isChange) : (ofKind k).kind = k := by
  cases k <;> first | rfl | simp [EntryKind.isChange, EntryKind.isDataBearing] at h

/-- Updates and deletes name their row by the columns of its supplemental key alone. -/
def keyedBySupplementalKey (a : ChangeAction) : Bool := a = update || a = delete

def isRowChange (a : ChangeAction) : Bool := a = insert || a = update || a = delete

end ChangeAction

/-- Where a piece of a large object lies outside its row. -/
structure LobLocation where
  offset : Nat
  length : Nat
  position : Nat
deriving DecidableEq, Repr

def LobLocation.start : LobLocation := ⟨0, 0, 0⟩

structure ColumnValue where
  /-- The ordinal of the column. -/
  id : Nat
  name : String
  dataType : DataType
  value : Field
  lob : Option LobLocation
  isSupplementalKey : Bool
  isKey : Bool
deriving DecidableEq, Repr

namespace ColumnValue

def ofColumn (c : Column) (value : Field) : ColumnValue :=
  ⟨c.id, c.name, c.dataType, value, none, false, c.isKey⟩

/-- Name and type as messages give them. -/
def described (v : ColumnValue) : String := s!"{v.name} {v.dataType.name}"

end ColumnValue

structure ChangeHeader where
  action : ChangeAction
  id : RecordId
  transactionId : Option String
  /-- System change number. -/
  scn : Nat
  timestamp : Option Timestamp
  tableId : Nat
  owner : String
  tableName : String
  /-- The text of a definition change. -/
  statement : Option String
deriving DecidableEq, Repr

namespace ChangeHeader

/-- Changes without owner and table are bound to no table. -/
def qualifiedName? (h : ChangeHeader) : Option String :=
  if h.owner = "" ∧ h.tableName = "" then none else some (qualifiedName h.owner h.tableName)

end ChangeHeader

structure ChangeRecord where
  header : ChangeHeader
  columns : List (Option ColumnValue)
  /-- Put together from more than one entry. -/
  multiPart : Bool
  complete : Bool
deriving DecidableEq, Repr

namespace ChangeRecord

def column? (r : ChangeRecord) (ordinal : Nat) : Option ColumnValue :=
  (columnIndex? ordinal).bind (fun i => r.columns[i]?.join)

def value? (r : ChangeRecord) (ordinal : Nat) : Option Field :=
  (r.column? ordinal).map ColumnValue.value

/-- Whether a column tells the row of a record apart: it has a value of its own and, where the record
is named by its supplemental key, belongs to that. -/
def identifies (action : ChangeAction) (v : ColumnValue) : Bool :=
  !v.value.isNull && !v.dataType.isLob && (!action.keyedBySupplementalKey || v.isSupplementalKey)

def keyColumns (r : ChangeRecord) : List ColumnValue :=
  (r.columns.filterMap id).filter (identifies r.header.action)

/-- The row that a record is about, as ordinals and displayed values. -/
def uniqueKey (r : ChangeRecord) : String :=
  ",".intercalate (r.keyColumns.map (fun v => s!"{v.id}:{v.value.display}"))

end ChangeRecord

structure ChangeVector where
  header : ChangeHeader
  key : List ColumnValue
  old : List ColumnValue
  new : List ColumnValue
  lob : List ColumnValue
deriving DecidableEq, Repr

def ChangeVector.empty (header : ChangeHeader) : ChangeVector := ⟨header, [], [], [], []⟩

end ChangeCapture
