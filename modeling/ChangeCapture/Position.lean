import ChangeCapture.Power

/-! Places in the log: files, byte offsets in them, and numbered records. -/
namespace ChangeCapture

structure LogFile where
  /-- Sequence number of the redo log the file was mined from. -/
  sequence : Nat
  /-- Seconds since 1970 at which the file was made. -/
  timestamp : Nat
  name : String
deriving DecidableEq, Repr, Inhabited

namespace LogFile

/-- The sequence in the high word, the time in the low one. -/
def uid (f : LogFile) : Nat := f.sequence * 2 ^ 32 + f.timestamp

def ofUid (uid : Nat) (name : String) : LogFile := ⟨uid / 2 ^ 32, uid % 2 ^ 32, name⟩

def text (f : LogFile) : String := s!"{f.name} ({f.sequence}.{f.timestamp})"

end LogFile

/-- Offsets are ordered by file first. -/
structure StreamOffset where
  fileId : Nat
  byteOffset : Nat
deriving DecidableEq, Repr, Inhabited

namespace StreamOffset

def zero : StreamOffset := ⟨0, 0⟩

def Before (a b : StreamOffset) : Prop :=
  a.fileId < b.fileId ∨ (a.fileId = b.fileId ∧ a.byteOffset < b.byteOffset)

instance : LT StreamOffset := ⟨Before⟩
instance (a b : StreamOffset) : Decidable (a < b) := inferInstanceAs (Decidable (_ ∨ _))

def later (a b : StreamOffset) : StreamOffset := if a < b then b else a

def order (a b : StreamOffset) : Ordering := if a < b then .lt else if b < a then .gt else .eq

def text (o : StreamOffset) : String := s!"{o.fileId}:{o.byteOffset}"

end StreamOffset

/-- A record by the sequence of its file and its number there, ordered by file first. -/
structure RecordId where
  file : Nat
  entry : Nat
deriving DecidableEq, Repr, Inhabited

namespace RecordId

def zero : RecordId := ⟨0, 0⟩

def Before (a b : RecordId) : Prop := a.file < b.file ∨ (a.file = b.file ∧ a.entry < b.entry)

instance : LT RecordId := ⟨Before⟩
instance (a b : RecordId) : Decidable (a < b) := inferInstanceAs (Decidable (_ ∨ _))

def order (a b : RecordId) : Ordering := if a < b then .lt else if b < a then .gt else .eq

/-- The file in the high word, the entry in the low one. -/
def word (r : RecordId) : Nat := r.file * 2 ^ 32 + r.entry

def isZero (r : RecordId) : Bool := r.word = 0

def text (r : RecordId) : String := toString r.word

end RecordId

end ChangeCapture
