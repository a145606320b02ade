import ChangeCapture.LogStream.Session

/-! Streams: one log file decoded into records, batch by batch. A failure leaves the records decoded
before it in the batch; after a clean end of the input, reading goes on once there is more. -/
namespace ChangeCapture

structure LogStream extends OpenFile where
  options : StreamOptions
  /-- The files open on behalf of this one, each included by the one before. -/
  included : List Included

namespace LogStream

/-- A stream that has not read anything yet. -/
def ofSource (file : LogFile) (source : Source) (options : StreamOptions) (cache : Cache) :
    LogStream where
  reader := .ofSource source
  state := {
    file
    phase := .unopened
    cache
    features := .none
    entrySeq := 0
    reportAt := none
    batch := []
    includedRecords := none }
  options
  included := []

/-- A stream that has read the header of its file. -/
def opened (file : LogFile) (source : Source) (options : StreamOptions) (cache : Cache) :
    Except Failure LogStream :=
  let s := ofSource file source options cache
  match ChunkReader.fileHeader s.reader with
  | (.error f, _) => .error f
  | (.ok _, reader) => .ok { s with reader, state := { s.state with phase := .headerRead } }

def isDone (s : LogStream) : Bool := s.state.phase = .done

/-- Position of the next entry in the file itself. -/
def offset (s : LogStream) : StreamOffset := ⟨s.state.file.uid, s.reader.offset⟩

/-- Adds to the end of the input. -/
def append (s : LogStream) (source : Source) : LogStream :=
  { s with reader := { s.reader with source := s.reader.source ++ source } }

/-- How deep files may include each other. -/
def depth (o : StreamOptions) : Nat := o.includes.elim 0 IncludeSource.depth

/-- Decodes entries until the batch is full or the footer was read. -/
def read (s : LogStream) (j : Journal) : Except Failure Unit × LogStream × Journal :=
  let (result, session) := Session.fill s.options (depth s.options)
    s.options.config.effectiveBatchSize ⟨s.toOpenFile, s.included, j⟩
  (result, { s with toOpenFile := session.toOpenFile, included := session.included },
    session.journal)

theorem full_of_read {s t : LogStream} {j k : Journal} (read : s.read j = (.ok (), t, k)) :
    s.options.config.effectiveBatchSize ≤ t.state.batch.length ∨ t.isDone := by
  rcases filled : Session.fill s.options (depth s.options) s.options.config.effectiveBatchSize
    ⟨s.toOpenFile, s.included, j⟩ with ⟨result, session⟩
  unfold LogStream.read at read
  rw [filled] at read
  cases read
  refine (Session.fills_fill s.options _ _ _ session filled).imp_right fun done => ?_
  exact decide_eq_true done

/-- Takes the decoded records. -/
def flush (s : LogStream) : LogStream × List DomainRecord :=
  ({ s with state := { s.state with batch := [] } }, s.state.batch)

/-- Emits the records that are held, and the summary of the transaction in progress. -/
def flushTransactions (s : LogStream) (j : Journal) : LogStream × Journal :=
  let desk := (Desk.mk s.state j).flushTransactions s.options.gates
  ({ s with state := desk.state }, desk.journal)

/-- What is left of the cache at the end: only the transaction. -/
def close (s : LogStream) : Cache := s.state.cache.clear

end LogStream

end ChangeCapture
