/-! What an entry is about, by its major type and subtype. -/
namespace ChangeCapture

inductive EntryKind where
  | header
  | footer
  | metadata
  | insert
  | update
  | delete
  | lobWrite
  | lobErase
  | lobTrim
  | ddl
  | noOp
  | commit
  | includeFile
  | includeStats
  /-- Any other pair of types; a reader passes over such entries. -/
  | unknown
deriving DecidableEq, Repr, Inhabited

namespace EntryKind

/-- Changes to the data of a table. -/
def isDataBearing : EntryKind → Bool
  | insert | update | delete | lobWrite | lobErase | lobTrim => true
  | _ => false

/-- Entries that become change records. -/
def isChange (k : EntryKind) : Bool := k.isDataBearing || k = ddl || k = noOp

/-- Entries that may belong to a transaction. -/
def isTransactional (k : EntryKind) : Bool := k.isChange || k = commit

def label : EntryKind → String
  | header => "HEADER"
  | footer => "FOOTER"
  | metadata => "METADATA"
  | insert => "INSERT"
  | update => "UPDATE"
  | delete => "DELETE"
  | lobWrite => "LOB_WRITE"
  | lobErase => "LOB_ERASE"
  | lobTrim => "LOB_TRIM"
  | ddl => "DDL"
  | noOp => "NO_OP"
  | commit => "COMMIT"
  | includeFile => "INCLUDE_FILE"
  | includeStats => "INCLUDE_STATS"
  | unknown => "NONE"

def controlMajor : UInt32 := 0
def footerSubtype : UInt32 := 1

def classify (major subtype : UInt32) : EntryKind :=
  match major.toNat, subtype.toNat with
  | 0, 0 => header
  | 0, 1 => footer
  | 1, 0 => metadata
  | 2, 1 => insert
  | 2, 2 => update
  | 2, 3 => delete
  | 2, 4 => lobWrite
  | 2, 5 => lobErase
  | 2, 6 => lobTrim
  | 2, 7 => ddl
  | 2, 8 => noOp
  | 2, 9 => includeFile
  | 2, 10 => includeStats
  | 3, 0 => commit
  | _, _ => unknown

/-- The pair of types that a kind is written with. -/
def types? : EntryKind → Option (UInt32 × UInt32)
  | header => some (0, 0)
  | footer => some (0, 1)
  | metadata => some (1, 0)
  | insert => some (2, 1)
  | update => some (2, 2)
  | delete => some (2, 3)
  | lobWrite => some (2, 4)
  | lobErase => some (2, 5)
  | lobTrim => some (2, 6)
  | ddl => some (2, 7)
  | noOp => some (2, 8)
  | includeFile => some (2, 9)
  | includeStats => some (2, 10)
  | commit => some (3, 0)
  | unknown => none

theorem classify_of_types? {k : EntryKind} {major subtype : UInt32}
    (h : k.types? = some (major, subtype)) : classify major subtype = k := by
  cases k <;> simp [types?] at h <;> obtain ⟨rfl, rfl⟩ := h <;> rfl

end EntryKind

end ChangeCapture
