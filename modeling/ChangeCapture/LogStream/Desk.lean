import ChangeCapture.Cache
import ChangeCapture.Config
import ChangeCapture.FileHeader
import ChangeCapture.Gate
import ChangeCapture.Include

/-! The state of a file that is being read, and how records leave it. A record is delivered when the
persist gate and then the filter gate let it pass. -/
namespace ChangeCapture

inductive Phase where
  | unopened
  | headerRead
  | reading
  /-- An included file is being read. -/
  | paused
  | done
deriving DecidableEq, Repr

/-- What a stream shares with the streams of its included files. -/
structure StreamOptions where
  config : Config
  gates : Gates
  includes : Option IncludeSource

structure FileState where
  file : LogFile
  phase : Phase
  cache : Cache
  features : Features
  /-- The number of the last entry. -/
  entrySeq : Nat
  /-- Where the records of an included file are reported: at the entry that includes it. -/
  reportAt : Option StreamOffset
  /-- Records that nobody has taken yet. -/
  batch : List DomainRecord
  /-- Data records of the last included file, until its statistics show up. -/
  includedRecords : Option Nat
deriving DecidableEq, Repr

namespace FileState

/-- After one more entry. Numbers are words of 32 bits: the one after the last of them is zero. -/
def counted (f : FileState) : FileState := { f with entrySeq := (f.entrySeq + 1) % 2 ^ 32 }

@[simp] theorem file_counted (f : FileState) : f.counted.file = f.file := rfl
@[simp] theorem phase_counted (f : FileState) : f.counted.phase = f.phase := rfl
@[simp] theorem cache_counted (f : FileState) : f.counted.cache = f.cache := rfl
@[simp] theorem batch_counted (f : FileState) : f.counted.batch = f.batch := rfl

end FileState

/-- What streams that continue each other share, and what they have said. -/
structure Journal where
  summaries : OpenTransactions
  notices : List Notice
deriving DecidableEq, Repr

def Journal.empty : Journal := ⟨∅, []⟩

/-- All that the processing of an entry looks at and changes. -/
structure Desk where
  state : FileState
  journal : Journal
deriving DecidableEq, Repr

namespace Desk

def say (d : Desk) (n : Notice) : Desk :=
  { d with journal := { d.journal with notices := d.journal.notices ++ [n] } }

def warn (d : Desk) (warnings : List Warning) : Desk :=
  warnings.foldl (fun d w => d.say (.warning w)) d

def withCache (d : Desk) (cache : Cache) : Desk := { d with state := { d.state with cache } }

def withCatalog (d : Desk) (catalog : Catalog) : Desk :=
  d.withCache { d.state.cache with catalog }

def addRecord (d : Desk) (r : DomainRecord) : Desk :=
  { d with state := { d.state with batch := d.state.batch ++ [r] } }

/-- The desk once the next entry has its number. -/
def counted (d : Desk) : Desk := { d with state := d.state.counted }

@[simp] theorem state_counted (d : Desk) : d.counted.state = d.state.counted := rfl

/-- The desk after a gate was asked. -/
def asked (d : Desk) (gates : Gates) (gate : Gate) (input : GateInput) : Desk :=
  d.say (.consulted gate input (gates gate input))

def emit (gates : Gates) (d : Desk) (r : DomainRecord) : Desk :=
  let input := GateInput.ofRecord r
  let d := d.asked gates .persist input
  if gates .persist input then
    let d := d.asked gates .filter input
    if gates .filter input then d.addRecord r else d
  else d

/-- Emits the row changes that were held. -/
def release (gates : Gates) (d : Desk) : Desk :=
  let (parts, held) := d.state.cache.parts.release
  held.foldl (fun d h => d.emit gates ⟨h.offset, .change (.row h.record)⟩)
    (d.withCache { d.state.cache with parts })

def transactions (d : Desk) : Transactions :=
  ⟨d.state.cache.currentTransaction, d.journal.summaries⟩

/-- Goes over to other summaries, and emits the one that was handed out. -/
def withTransactions (gates : Gates) (d : Desk) (t : Transactions)
    (finished : Option TransactionSummary) : Desk :=
  let d := d.withCache { d.state.cache with currentTransaction := t.current }
  let d := { d with journal := { d.journal with summaries := t.summaries } }
  finished.elim d (fun s => d.emit gates ⟨s.lastOffset, .transaction s⟩)

/-- Emits what is held, then the summary of the current transaction. -/
def flushTransactions (gates : Gates) (d : Desk) : Desk :=
  let d := d.release gates
  let (t, finished) := d.transactions.flush
  d.withTransactions gates t finished

end Desk

end ChangeCapture
