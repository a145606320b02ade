import ChangeCapture.Json.Members
import ChangeCapture.Json.Reader
import ChangeCapture.Record
import ChangeCapture.Timestamp.Reader

/-! Records read from JSON. The header of a change has no object of its own: its members stand among
those of the change, which is always written as an object. -/
namespace ChangeCapture

/-- The types without a name of their own, by the names that they have in records. -/
def DataType.variants : List (String × DataType) :=
  [("Number", number), ("Float", float), ("BinaryFloat", binaryFloat),
   ("BinaryDouble", binaryDouble), ("Char", char), ("Varchar", varchar), ("NChar", nchar),
   ("NVarchar", nvarchar), ("Raw", raw), ("LongRaw", longRaw), ("Clob", clob), ("NClob", nclob),
   ("Blob", blob), ("Date", date), ("Timestamp", timestamp), ("TimestampTz", timestampTz),
   ("TimestampLtz", timestampLtz), ("IntervalDs", intervalDs), ("IntervalYm", intervalYm),
   ("Unknown", unknown)]

def DataType.variantName? (t : DataType) : Option String :=
  (variants.find? (fun v => v.2 = t)).map Prod.fst

def DataType.ofJson? (j : Json) : Option DataType :=
  match Json.variant? j with
  | some ("Unsupported", some (.text (some name))) => some (.unsupported name)
  | _ => (Json.unit? j).bind (fun name => variants.lookup name)

def ChangeAction.variants : List (String × ChangeAction) :=
  [("Insert", insert), ("Update", update), ("Delete", delete), ("LobWrite", lobWrite),
   ("LobErase", lobErase), ("LobTrim", lobTrim), ("Ddl", ddl), ("NoOp", noOp), ("None", unknown)]

/-- An action holds nothing, which in the header of a change may also be written as no members. -/
def ChangeAction.ofJson? (j : Json) : Option ChangeAction :=
  match Json.variant? j with
  | some (name, some (.object [])) => variants.lookup name
  | _ => (Json.unit? j).bind (fun name => variants.lookup name)

def Timestamp.ofJson? (j : Json) : Option Timestamp := (Json.string? j).bind Timestamp.ofText?

/-- A wide decimal is a text, or a whole number of 64 bits. -/
def Decimal.Wide.ofJson? : Json → Option Decimal.Wide
  | .text t => t.bind ofText?
  | .number n => n.word?.map (⟨·, 0⟩)
  | _ => none

def Field.ofNumber? (j : Json) (bits : JsonNumber → Option Nat) (field : Nat → Field) :
    Option Field :=
  match j with
  | .number n => (bits n).map field
  | _ => none

def Field.ofJson? (j : Json) : Option Field :=
  match Json.unit? j with
  | some "Null" => some .null
  | _ => match Json.variant? j with
    | some ("Int", some j) => (Json.int? 32 j).map .int
    | some ("Long", some j) => (Json.int? 64 j).map .long
    | some ("Decimal", some j) => ((Json.string? j).bind Decimal.Fixed.ofText?).map .decimal
    | some ("BigDecimal", some j) => (Decimal.Wide.ofJson? j).map .bigDecimal
    | some ("Float", some j) => ofNumber? j JsonNumber.toSingle? (fun n => .float (.ofNat n))
    | some ("Double", some j) => ofNumber? j JsonNumber.toDouble? (fun n => .double (.ofNat n))
    | some ("String", some j) => (Json.string? j).map .text
    | some ("Binary", some j) =>
      (Json.list? (Json.nat? 8) j).map (fun bytes => .binary (bytes.map UInt8.ofNat))
    | some ("Timestamp", some j) => (Timestamp.ofJson? j).map .timestamp
    | some ("Interval", some j) => (Json.string? j).map .interval
    | _ => none

def StreamOffset.ofJson? (j : Json) : Option StreamOffset := do
  let m ← Json.Members.of? ["file_id", "byte_offset"] j
  return ⟨← m.required "file_id" (Json.nat? 64), ← m.required "byte_offset" (Json.nat? 64)⟩

def RecordId.ofJson? (j : Json) : Option RecordId := do
  let m ← Json.Members.of? ["file", "entry"] j
  return ⟨← m.required "file" (Json.nat? 32), ← m.required "entry" (Json.nat? 32)⟩

def Column.ofJson? (j : Json) : Option Column := do
  let m ← Json.Members.of?
    ["id", "name", "data_type", "precision", "scale", "nullable", "is_key"] j
  return {
    id := ← m.required "id" (Json.nat? 32)
    name := ← m.required "name" Json.string?
    dataType := ← m.required "data_type" DataType.ofJson?
    precision := ← m.required "precision" (Json.int? 32)
    scale := ← m.required "scale" (Json.int? 32)
    nullable := ← m.required "nullable" Json.bool?
    isKey := ← m.required "is_key" Json.bool? }

def SchemaDocument.ofJson? (j : Json) : Option SchemaDocument := do
  let m ← Json.Members.of?
    ["owner", "name", "object_id", "columns", "valid_since", "has_key_flags"] j
  return {
    owner := ← m.required "owner" Json.string?
    name := ← m.required "name" Json.string?
    objectId := ← m.optional "object_id" (Json.nat? 32)
    columns := ← m.required "columns" (Json.list? Column.ofJson?)
    validSince := ← m.required "valid_since" (Json.nat? 64)
    hasKeyFlags := ← m.required "has_key_flags" Json.bool? }

def LobLocation.ofJson? (j : Json) : Option LobLocation := do
  let m ← Json.Members.of? ["offset", "length", "position"] j
  return {
    offset := ← m.required "offset" (Json.nat? 64)
    length := ← m.required "length" (Json.nat? 64)
    position := ← m.required "position" (Json.nat? 32) }

def ColumnValue.ofJson? (j : Json) : Option ColumnValue := do
  let m ← Json.Members.of?
    ["id", "name", "data_type", "value", "lob", "is_supplemental_key", "is_key"] j
  return {
    id := ← m.required "id" (Json.nat? 32)
    name := ← m.required "name" Json.string?
    dataType := ← m.required "data_type" DataType.ofJson?
    value := ← m.required "value" Field.ofJson?
    lob := ← m.optional "lob" LobLocation.ofJson?
    isSupplementalKey := ← m.required "is_supplemental_key" Json.bool?
    isKey := ← m.required "is_key" Json.bool? }

namespace ChangeHeader

def names : List String :=
  ["action", "id", "transaction_id", "scn", "timestamp", "table_id", "owner", "table_name",
   "statement"]

def ofMembers? (m : Json.Members) : Option ChangeHeader := do
  return {
    action := ← m.required "action" ChangeAction.ofJson?
    id := ← m.required "id" RecordId.ofJson?
    transactionId := ← m.optional "transaction_id" Json.string?
    scn := ← m.required "scn" (Json.nat? 64)
    timestamp := ← m.optional "timestamp" Timestamp.ofJson?
    tableId := ← m.required "table_id" (Json.nat? 32)
    owner := ← m.required "owner" Json.string?
    tableName := ← m.required "table_name" Json.string?
    statement := ← m.optional "statement" Json.string? }

/-- Nesting left for a value among the members of a change, which itself stands three deep. -/
def nesting : Nat := 124

/-- The header and the members beside it. All members but the latter have to be plain. -/
def split? (own : List String) (j : Json) : Option (ChangeHeader × Json.Members) :=
  match j with
  | .object members => do
    let mine ← Json.Members.ofObject? own members
    let others := members.filter (fun m => !m.1.any own.contains)
    if others.all (fun m => m.2.isPlain nesting) then
      return (← ofMembers? (← Json.Members.ofObject? names others), mine)
    else none
  | _ => none

end ChangeHeader

def ChangeRecord.ofJson? (j : Json) : Option ChangeRecord := do
  let (header, m) ← ChangeHeader.split? ["columns", "multi_part", "complete"] j
  return {
    header
    columns := ← m.required "columns" (Json.list? (Json.nullable? ColumnValue.ofJson?))
    multiPart := ← m.required "multi_part" Json.bool?
    complete := ← m.required "complete" Json.bool? }

def ChangeVector.ofJson? (j : Json) : Option ChangeVector := do
  let (header, m) ← ChangeHeader.split? ["key", "old", "new", "lob"] j
  return {
    header
    key := ← m.required "key" (Json.list? ColumnValue.ofJson?)
    old := ← m.required "old" (Json.list? ColumnValue.ofJson?)
    new := ← m.required "new" (Json.list? ColumnValue.ofJson?)
    lob := ← m.required "lob" (Json.list? ColumnValue.ofJson?) }

namespace TransactionSummary

def count? (member : Option String × Json) : Option (String × Nat) := do
  return (← member.1, ← Json.nat? 64 member.2)

/-- Counts by table, of which a later one replaces an earlier one. -/
def counts? : Json → Option (Registry String Nat)
  | .object members => (members.mapM count?).map Registry.ofList
  | _ => none

def names : List String :=
  ["id", "start_file_id", "end_file_id", "start_scn", "end_scn", "start_time", "end_time",
   "start_record_id", "end_record_id", "record_count", "schema_counts", "size", "last_offset"]

def ofJson? (j : Json) : Option TransactionSummary := do
  let m ← Json.Members.of? names j
  return {
    id := ← m.required "id" Json.string?
    startFileId := ← m.required "start_file_id" (Json.nat? 64)
    endFileId := ← m.required "end_file_id" (Json.nat? 64)
    startScn := ← m.required "start_scn" (Json.nat? 64)
    endScn := ← m.required "end_scn" (Json.nat? 64)
    startTime := ← m.optional "start_time" Timestamp.ofJson?
    endTime := ← m.optional "end_time" Timestamp.ofJson?
    startRecordId := ← m.required "start_record_id" RecordId.ofJson?
    endRecordId := ← m.required "end_record_id" RecordId.ofJson?
    recordCount := ← m.required "record_count" (Json.nat? 64)
    schemaCounts := ← m.required "schema_counts" counts?
    size := ← m.required "size" (Json.nat? 64)
    lastOffset := ← m.required "last_offset" StreamOffset.ofJson? }

end TransactionSummary

def RecordData.ofJson? (j : Json) : Option RecordData :=
  match Json.variant? j with
  | some ("Metadata", some j) => (SchemaDocument.ofJson? j).map .metadata
  | some ("Change", some j) => (ChangeRecord.ofJson? j).map (fun r => .change (.row r))
  | some ("Vector", some j) => (ChangeVector.ofJson? j).map (fun v => .change (.vector v))
  | some ("Transaction", some j) => (TransactionSummary.ofJson? j).map .transaction
  | _ => none

namespace DomainRecord

def ofJson? (j : Json) : Option DomainRecord := do
  let m ← Json.Members.of? ["offset", "data"] j
  return ⟨← m.required "offset" StreamOffset.ofJson?, ← m.required "data" RecordData.ofJson?⟩

def ofText? (text : String) : Option DomainRecord := (Json.parse? text).bind ofJson?

end DomainRecord

end ChangeCapture
