import ChangeCapture.Change
import ChangeCapture.Failure
import ChangeCapture.Registry

/-! Rows that come in parts: a row change and the large-object writes that complete it, in either
order. What waits for its other parts is held under the row's key. -/
namespace ChangeCapture

/-- Identity of a row that is split over several entries. -/
structure PartKey where
  key : String
  file : Nat
  transaction : Option String
  tableId : Nat
deriving DecidableEq, Repr

def PartKey.ofRecord (r : ChangeRecord) : PartKey :=
  ⟨r.uniqueKey, r.header.id.file, r.header.transactionId, r.header.tableId⟩

structure HeldRecord where
  /-- The offset that the record is reported at once it is let go. -/
  offset : StreamOffset
  record : ChangeRecord
deriving DecidableEq, Repr

/-- What is held, in the order in which it came. -/
abbrev Parts := Registry PartKey HeldRecord

/-- What became of a change that was offered. -/
inductive Offered (α : Type) where
  | emitted (change : α)
  /-- A row change that waits for its large objects. -/
  | held
  /-- A large-object write, which is part of another record from now on. -/
  | fragment
deriving DecidableEq, Repr

def Offered.map (f : α → β) : Offered α → Offered β
  | emitted change => emitted (f change)
  | held => held
  | fragment => fragment

/-- Slots up to the last one that is taken. -/
def trimEmpty : List (Option α) → List (Option α)
  | [] => []
  | slot :: rest =>
    match slot, trimEmpty rest with
    | none, [] => []
    | slot, rest => slot :: rest

namespace ColumnValue

/-- The value of `other` in the place of `v`. -/
def replacedBy (v other : ColumnValue) : ColumnValue :=
  { v with
    value := other.value
    lob := other.lob <|> v.lob
    isSupplementalKey := v.isSupplementalKey || other.isSupplementalKey }

/-- Whether both are values of one column. -/
def sameColumn (v other : ColumnValue) : Bool :=
  v.name = other.name && v.dataType = other.dataType

end ColumnValue

/-- Two values of one slot that are not of one column. -/
structure SlotConflict where
  into : ColumnValue
  other : ColumnValue
deriving DecidableEq, Repr

/-- A slot takes a value while it has none of its own, or whenever `overwrite` says so. -/
def adoptSlot (overwrite : Bool) (into other : Option ColumnValue) :
    Except SlotConflict (Option ColumnValue) :=
  match into, other with
  | into, none => .ok into
  | none, some v => .ok (some v)
  | some u, some v =>
    if u.value.isNull || overwrite then
      if u.sameColumn v then .ok (some (u.replacedBy v)) else .error ⟨u, v⟩
    else .ok (some u)

/-- Adopts slot by slot up to the first conflict, and leaves the slots from there on. -/
def adoptSlots (overwrite : Bool) : List (Option ColumnValue) → List (Option ColumnValue) →
    List (Option ColumnValue) × Option SlotConflict
  | into, [] => (into, none)
  | [], other => (trimEmpty other, none)
  | u :: into, v :: other =>
    match adoptSlot overwrite u v with
    | .error conflict => (u :: into, some conflict)
    | .ok slot =>
      let (rest, conflict) := adoptSlots overwrite into other
      (slot :: rest, conflict)

namespace ChangeRecord

def isLobWrite (r : ChangeRecord) : Bool := r.header.action = .lobWrite

/-- Moves the values of `other` into the empty and null slots; of two large-object writes the second
one wins. -/
def adopt (r other : ChangeRecord) : ChangeRecord × Option SlotConflict :=
  let (columns, conflict) := adoptSlots (r.isLobWrite && other.isLobWrite) r.columns other.columns
  ({ r with columns }, conflict)

/-- Whether a large object of the table has no value in the record. -/
def lacksLob (r : ChangeRecord) (t : Table) : Bool :=
  t.columns.zipIdx.any (fun (c, i) =>
    c.dataType.isLob && ((r.columns[i]?).join.map ColumnValue.value).all Field.isNull)

end ChangeRecord

namespace SlotConflict

/-- The failure, told from the side of the record that was held. -/
def failure (c : SlotConflict) (key : String) (heldInto : Bool) : Failure :=
  let (held, current) := if heldInto then (c.into, c.other) else (c.other, c.into)
  .mergeMismatch key c.other.id held.described current.described

end SlotConflict

namespace Parts

/-- A large-object write joins what is held of its row, or is held itself. -/
def offerLobWrite (p : Parts) (offset : StreamOffset) (r : ChangeRecord) :
    Parts × Except Failure (Offered ChangeRecord) :=
  let key := PartKey.ofRecord r
  match p.get? key with
  | none =>
    (p.insert key ⟨offset, { r with multiPart := true, complete := false }⟩, .ok .fragment)
  | some held =>
    match held.record.adopt r with
    | (record, none) =>
      (p.insert key { held with record := { record with multiPart := true } }, .ok .fragment)
    | (record, some conflict) =>
      (p.insert key { held with record }, .error (conflict.failure key.key true))

/-- A row change takes up the large-object write that is held for it, or waits if a large object is
missing. -/
def offerRowChange (p : Parts) (table : Option Table) (offset : StreamOffset) (r : ChangeRecord) :
    Parts × Except Failure (Offered ChangeRecord) :=
  let key := PartKey.ofRecord r
  match (p.get? key).filter (fun held => held.record.isLobWrite) with
  | some held =>
    match r.adopt held.record with
    | (record, none) =>
      (p.erase key, .ok (.emitted { record with multiPart := true, complete := true }))
    | (_, some conflict) => (p.erase key, .error (conflict.failure key.key false))
  | none =>
    if table.any r.lacksLob then
      (p.insert key ⟨offset, { r with complete := false }⟩, .ok .held)
    else (p, .ok (.emitted r))

/-- Offers a change of `table`, which is unknown unless the dictionary has it. -/
def offer (p : Parts) (table : Option Table) (offset : StreamOffset) (r : ChangeRecord) :
    Parts × Except Failure (Offered ChangeRecord) :=
  if r.isLobWrite then p.offerLobWrite offset r
  else if r.header.action.isRowChange then p.offerRowChange table offset r
  else (p, .ok (.emitted r))

/-- Lets the row changes go, in the order in which they came; large-object writes stay. -/
def release (p : Parts) : Parts × List HeldRecord :=
  let rows := p.filter (fun _ held => held.record.header.action.isRowChange)
  (p.filter (fun _ held => !held.record.header.action.isRowChange),
    rows.values.map (fun held => { held with record := { held.record with complete := true } }))

end Parts

end ChangeCapture
