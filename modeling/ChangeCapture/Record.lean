import ChangeCapture.Change
import ChangeCapture.Transaction

/-! Records: what a stream delivers, and the offset each is reported at. -/
namespace ChangeCapture

/-- A change in one of its two views. -/
inductive Change where
  | row (record : ChangeRecord)
  | vector (vector : ChangeVector)
deriving DecidableEq, Repr

def Change.header : Change → ChangeHeader
  | row record => record.header
  | vector v => v.header

inductive RecordData where
  | metadata (document : SchemaDocument)
  | change (change : Change)
  | transaction (summary : TransactionSummary)
deriving DecidableEq, Repr

structure DomainRecord where
  offset : StreamOffset
  data : RecordData
deriving DecidableEq, Repr

namespace DomainRecord

/-- The table that the record belongs to. -/
def schema? (r : DomainRecord) : Option String :=
  match r.data with
  | .metadata document => some document.qualifiedName
  | .change change => change.header.qualifiedName?
  | .transaction _ => none

/-- The kind of entry that such a record comes from. -/
def kind (r : DomainRecord) : EntryKind :=
  match r.data with
  | .metadata _ => .metadata
  | .change change => change.header.action.kind
  | .transaction _ => .commit

/-- Records of table data, which the statistics of an included file count. -/
def isData (r : DomainRecord) : Bool := r.kind.isDataBearing

end DomainRecord

end ChangeCapture
