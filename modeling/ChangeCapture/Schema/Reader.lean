import ChangeCapture.Column
import ChangeCapture.Failure
import ChangeCapture.Json.Members
import ChangeCapture.Json.Reader

/-! Schema documents read from JSON. Descriptors may come in any order; without the virtual column
their ordinals run from one without a gap. -/
namespace ChangeCapture

structure ColumnDescriptor where
  ordinal : Nat
  name : String
  dataType : String
  precision : Option Int
  scale : Option Int
  nullable : Option Bool
  primaryKey : Option Bool
deriving DecidableEq, Repr

namespace ColumnDescriptor

def column (c : ColumnDescriptor) : Column where
  id := c.ordinal
  name := c.name
  dataType := DataType.ofName c.dataType
  precision := c.precision.getD 0
  scale := c.scale.getD 0
  nullable := c.nullable.getD true
  isKey := c.primaryKey.getD false

def names : List String :=
  ["columnId", "columnName", "dataType", "dataPrecision", "dataScale", "nullable", "primaryKey"]

def ofJson? (j : Json) : Option ColumnDescriptor := do
  let m ← Json.Members.of? names j
  return {
    ordinal := ← m.required "columnId" (Json.nat? 32)
    name := ← m.required "columnName" Json.string?
    dataType := ← m.required "dataType" Json.string?
    precision := ← m.optional "dataPrecision" (Json.int? 32)
    scale := ← m.optional "dataScale" (Json.int? 32)
    nullable := ← m.optional "nullable" Json.bool?
    primaryKey := ← m.optional "primaryKey" Json.bool? }

end ColumnDescriptor

/-- A document as it is written, before its columns are put in order. -/
structure SchemaText where
  owner : String
  name : String
  objectId : Option Nat
  validSince : Nat
  columns : List ColumnDescriptor
deriving DecidableEq, Repr

namespace SchemaText

def names : List String := ["owner", "name", "objectId", "validSince", "columns"]

def ofJson? (j : Json) : Option SchemaText := do
  let m ← Json.Members.of? names j
  return {
    owner := ← m.required "owner" Json.string?
    name := ← m.required "name" Json.string?
    objectId := ← m.optional "objectId" (Json.nat? 32)
    validSince := ← m.defaulted "validSince" 0 (Json.nat? 64)
    columns := ← m.required "columns" (Json.list? ColumnDescriptor.ofJson?) }

/-- The descriptors of real columns by ordinal. -/
def sortedColumns (columns : List ColumnDescriptor) : List ColumnDescriptor :=
  (columns.filter (fun c => c.ordinal ≠ 0)).mergeSort (fun a b => a.ordinal ≤ b.ordinal)

/-- Columns from place `index` on, each of which has to have the ordinal of its place. -/
def numbered (table : String) (index : Nat) :
    List ColumnDescriptor → Except Failure (List Column)
  | [] => .ok []
  | c :: rest =>
    if c.ordinal = columnOrdinal index then
      return c.column :: (← numbered table (index + 1) rest)
    else .error (.invalidSchema table (columnOrdinal index) c.ordinal)

def document (s : SchemaText) : Except Failure SchemaDocument := do
  let descriptors := sortedColumns s.columns
  let columns ← numbered (qualifiedName s.owner s.name) 0 descriptors
  return {
    owner := s.owner
    name := s.name
    objectId := s.objectId
    columns
    validSince := s.validSince
    hasKeyFlags := descriptors.all (fun c => c.primaryKey.isSome) }

end SchemaText

def SchemaDocument.parse (text : String) : Except Failure SchemaDocument :=
  match (Json.parse? text).bind SchemaText.ofJson? with
  | some s => s.document
  | none => .error .unreadableSchema

end ChangeCapture
