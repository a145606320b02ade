import ChangeCapture.Catalog
import ChangeCapture.Change.Row
import ChangeCapture.Change.Vector
import ChangeCapture.Record

/-! Change entries become changes. An entry may first teach the catalog its columns; what it taught
stays, even if the entry then cannot be read. A key image tells the key of a table that nothing else
has told the key of. -/
namespace ChangeCapture

inductive ChangeView where
  /-- One merged row per change. -/
  | row
  /-- Key, old, new and large-object images apart. -/
  | vector
deriving DecidableEq, Repr

namespace Change

def empty (header : ChangeHeader) : ChangeView → Change
  | .row => .row ⟨header, [], false, true⟩
  | .vector => .vector (.empty header)

def ofImages (header : ChangeHeader) (table : Table) (images : List ColumnImage) :
    ChangeView → Except Failure Change
  | .row => (ChangeRecord.ofImages header table images).map .row
  | .vector => (ChangeVector.ofImages header table images).map .vector

/-- The values that were given as parts of a supplemental key. -/
def supplementalKey (c : Change) : List ColumnValue :=
  let values := match c with
    | row record => record.columns.filterMap id
    | vector v => v.key
  values.filter ColumnValue.isSupplementalKey

def flagKey (v : ColumnValue) : ColumnValue := if v.isSupplementalKey then { v with isKey := true } else v

/-- Flags the supplemental key as the key of the table. -/
def flagKeys : Change → Change
  | row record => .row { record with columns := record.columns.map (Option.map flagKey) }
  | vector v => .vector { v with key := v.key.map flagKey }

end Change

def ChangeHeader.ofEntry (e : Entry) (id : RecordId) (tableId : Nat) (table : Option Table) :
    Except Failure ChangeHeader := do
  return {
    action := .ofKind e.kind
    id
    transactionId := ← e.text? .xid
    scn := (← e.wide? .scn).getD 0
    timestamp := (← e.wide? .timestamp).bind Timestamp.ofUnix?
    tableId
    owner := (← e.text? .objectOwner).getD ((table.map Table.owner).getD "")
    tableName := (← e.text? .objectName).getD ((table.map Table.name).getD "")
    statement := ← e.text? .ddlSql }

/-- A change, if there is one, with the catalog after it and what was passed over on the way. -/
structure Assembly where
  catalog : Catalog
  warnings : List Warning
  result : Except Failure Change

namespace Catalog

/-- Table id and ordinals of an entry, and the dictionary with the columns that it describes. -/
def describe (d : Dictionary) (e : Entry) : Except Failure (Nat × List Nat × Dictionary) := do
  let tableId := (← e.word? .objectId).getD 0
  let ordinals ← ColumnImage.ordinals e
  let dictionary ← if e.has .columnName ∨ e.has .columnType then learn d e tableId ordinals
    else .ok d
  return (tableId, ordinals, dictionary)

/-- Whether nothing has told the key of a table yet. -/
def lacksKey (c : Catalog) (table : Table) : Bool :=
  !table.hasKey && ((c.schemas.get? table.qualifiedName).map SchemaDocument.hasKeyFlags).all (! ·)

/-- Flags the columns of a key image in the change and in the catalog. -/
def retrofitKey (c : Catalog) (table : Table) (change : Change) : Assembly :=
  let ordinals := (change.supplementalKey.map ColumnValue.id).eraseDups
  if change.header.action.keyedBySupplementalKey ∧ c.lacksKey table ∧ ordinals ≠ [] then
    { catalog := ⟨c.dictionary.markKeyColumns change.header.tableId ordinals,
        c.schemas.markKeyColumns table.qualifiedName ordinals⟩
      warnings := [.keyFromImages table.qualifiedName ordinals]
      result := .ok change.flagKeys }
  else ⟨c, [], .ok change⟩

/-- The change of an entry whose table is known. -/
def assembleKnown (c : Catalog) (view : ChangeView) (id : RecordId) (e : Entry) (table : Table)
    (tableId : Nat) (ordinals : List Nat) : Assembly :=
  let read : Except Failure (ChangeHeader × List ColumnImage) := do
    let header ← ChangeHeader.ofEntry e id tableId (some table)
    return (header, ← ColumnImage.ofEntry e ordinals)
  match read with
  | .error f => ⟨c, [], .error f⟩
  | .ok (header, images) =>
    let passed := ColumnImage.warnings table images
    match Change.ofImages header table images view with
    | .error f => ⟨c, passed, .error f⟩
    | .ok change =>
      let done := c.retrofitKey table change
      { done with warnings := passed ++ done.warnings }

/-- The change of an entry of a table that nothing is known of, which can hold no column. -/
def assembleUnknown (view : ChangeView) (id : RecordId) (e : Entry) (tableId : Nat)
    (ordinals : List Nat) : Except Failure Change :=
  if ordinals ≠ [] then .error (.missingSchema tableId)
  else (ChangeHeader.ofEntry e id tableId none).map (fun header => Change.empty header view)

def assemble (c : Catalog) (view : ChangeView) (id : RecordId) (e : Entry) : Assembly :=
  match describe c.dictionary e with
  | .error f => ⟨c, [], .error f⟩
  | .ok (tableId, ordinals, dictionary) =>
    let c := { c with dictionary }
    match dictionary.get? tableId with
    | some table => c.assembleKnown view id e table tableId ordinals
    | none => ⟨c, [], assembleUnknown view id e tableId ordinals⟩

end Catalog

end ChangeCapture
