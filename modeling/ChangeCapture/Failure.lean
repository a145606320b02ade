import ChangeCapture.Text.Hex
import ChangeCapture.Text.Utf8
import ChangeCapture.Text.Utf16

/-! What can go wrong, by cause, and how it is said. A closed stream is the one failure after which
reading may go on. -/
namespace ChangeCapture

/-- How many bytes an image may have. -/
inductive ImageLength where
  | exactly (n : Nat)
  | either (n m : Nat)
  | even
deriving DecidableEq, Repr

def ImageLength.text : ImageLength → String
  | exactly n => toString n
  | either n m => s!"{n} or {m}"
  | even => "an even number of"

/-- Why an image is no value of its type. -/
inductive ImageFault where
  | length (expected : ImageLength) (actual : Nat)
  | empty
  | digit (byte : UInt8)
  | overflow
  | notInteger (number : String)
  | dateTime
  | utf8 (fault : Text.Utf8.Fault)
  | utf16 (unit : Nat)
deriving DecidableEq, Repr

def ImageFault.message : ImageFault → String
  | length expected actual => s!"expected {expected.text} bytes, got {actual}"
  | empty => "empty value"
  | digit byte => s!"invalid base-100 digit 0x{Text.padded 2 (Text.hexLower byte.toNat)}"
  | overflow => "value out of range"
  | notInteger number => s!"{number} is not an integer"
  | dateTime => "invalid date or time"
  | utf8 fault => s!"invalid UTF-8: {fault.message}"
  | utf16 unit => s!"invalid UTF-16: unpaired surrogate found: {Text.hexLower unit}"

/-- The identifier of a tag as it is written in messages. -/
def tagIdText (id : UInt32) : String := s!"0x{Text.padded 4 (Text.hexLower id.toNat)}"

inductive EntryFault where
  | shortLength (length : Nat)
  | longFooter (length : Nat)
  | trailingChunks (count : Nat)
  | tagOverrun (id : UInt32) (length remaining : Nat)
  | noDocument
deriving DecidableEq, Repr

def EntryFault.message : EntryFault → String
  | shortLength length => s!"length {length} is shorter than the entry header"
  | longFooter length => s!"footer of {length} chunks"
  | trailingChunks count => s!"{count} trailing chunks cannot hold a tag"
  | tagOverrun id length remaining =>
    s!"tag {tagIdText id} of {length} chunks does not fit the {remaining} remaining"
  | noDocument => "metadata entry without schema document"

inductive TagFault where
  | emptyPayload
  | shortPair (chunks : Nat)
  | noByteLength
  | byteLength (bytes chunks : Nat)
  | notText (fault : Text.Utf8.Fault)
  | orphanValue
deriving DecidableEq, Repr

def TagFault.message : TagFault → String
  | emptyPayload => "expected 1 chunk, payload is empty"
  | shortPair chunks => s!"expected 2 chunks, payload has {chunks}"
  | noByteLength => "missing byte length"
  | byteLength bytes chunks => s!"byte length {bytes} exceeds payload of {chunks} chunks"
  | notText fault => fault.message
  | orphanValue => "value precedes any column id"

inductive Failure where
  /-- Reading the input failed, with a text of its own or without. -/
  | input (message : Option String)
  | streamClosed
  | truncated (offset : Nat)
  | invalidSignature (bytes : List UInt8)
  | unsupportedVersion (major minor : Nat)
  | malformedEntry (offset : Nat) (fault : EntryFault)
  | malformedTag (id : UInt32) (fault : TagFault)
  | unsupportedFeatures
  /-- The document is not the JSON of a schema. -/
  | unreadableSchema
  | invalidSchema (table : String) (expected found : Nat)
  | incompatibleDdl (table : String) (ordinal : Nat) (old new : String)
  | missingSchema (tableId : Nat)
  | tagCountMismatch (tableId columnIds names types : Nat)
  | undescribedColumn (ordinal : Nat)
  | unsupportedType (column dataType : String)
  | invalidValue (column dataType : String) (fault : ImageFault)
  | mergeMismatch (key : String) (ordinal : Nat) (cached current : String)
  | missingIncludeSource (name : String)
  /-- Stands for files that include each other for ever: decoding has no such failure, and runs out of
  stack. -/
  | includedTooDeep (name : String)
deriving DecidableEq, Repr

namespace Failure

/-- Only a clean end of the input at hand leaves a stream that can be read on. -/
def isFatal (f : Failure) : Bool := f ≠ streamClosed

def signatureText (bytes : List UInt8) : String :=
  "[" ++ ", ".intercalate (bytes.map (fun b => Text.padded 2 (Text.hexUpper b.toNat))) ++ "]"

def message : Failure → String
  | input text => "io error: " ++ text.getD ""
  | streamClosed => "stream closed"
  | truncated offset => s!"stream truncated at byte offset {offset}"
  | invalidSignature bytes => s!"invalid PLOG signature: {signatureText bytes}"
  | unsupportedVersion major minor => s!"unsupported PLOG version {major}.{minor}"
  | malformedEntry offset fault => s!"malformed entry at byte offset {offset}: {fault.message}"
  | malformedTag id fault => s!"malformed tag {tagIdText id}: {fault.message}"
  | unsupportedFeatures =>
    "file does not declare the commit-only and schema document features " ++
      "required to decode data entries"
  | unreadableSchema => "invalid schema document"
  | invalidSchema table expected found =>
    s!"invalid schema document for {table}: expected column {expected}, found {found}"
  | incompatibleDdl table ordinal old new =>
    s!"incompatible DDL for {table}: column {ordinal} changed from {old} to {new}"
  | missingSchema tableId => s!"no schema for table id {tableId} carrying column data"
  | tagCountMismatch tableId columnIds names types =>
    s!"tag count mismatch for table id {tableId}: {columnIds} column ids, " ++
      s!"{names} names, {types} types"
  | undescribedColumn ordinal => s!"column {ordinal} has a value but no definition"
  | unsupportedType column dataType => s!"unsupported data type {dataType} of column {column}"
  | invalidValue column dataType fault =>
    s!"cannot decode {dataType} value of column {column}: {fault.message}"
  | mergeMismatch key ordinal cached current =>
    s!"cannot merge column {ordinal} into record {key}: cached {cached}, current {current}"
  | missingIncludeSource name =>
    s!"included file {name} referenced but no include source is configured"
  | includedTooDeep name => s!"included file {name} is nested too deep"

end Failure

end ChangeCapture
