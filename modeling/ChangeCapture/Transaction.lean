import ChangeCapture.Entry
import ChangeCapture.Failure
import ChangeCapture.Position
import ChangeCapture.Timestamp

/-! What the entries of a transaction add up to. A summary is handed out when an entry of another
transaction shows up, if there is enough in it. -/
namespace ChangeCapture

structure TransactionSummary where
  id : String
  startFileId : Nat
  endFileId : Nat
  startScn : Nat
  endScn : Nat
  startTime : Option Timestamp
  endTime : Option Timestamp
  startRecordId : RecordId
  endRecordId : RecordId
  recordCount : Nat
  /-- Records by qualified table name. -/
  schemaCounts : Registry String Nat
  /-- Bytes of the encoded entries. -/
  size : Nat
  lastOffset : StreamOffset
deriving DecidableEq, Repr

/-- What the log says about one entry, from outside of it. -/
structure Observation where
  fileId : Nat
  recordId : RecordId
  offset : StreamOffset
  /-- The table of a change. -/
  schema : Option String
deriving DecidableEq, Repr

/-- The least bound that covers `value` too, where a lower bound of `unset` covers nothing. -/
def lowered [DecidableEq α] [LT α] [DecidableLT α] (unset start value : α) : α :=
  if start = unset ∨ value < start then value else start

def raised [LT α] [DecidableLT α] (stop value : α) : α := if stop < value then value else stop

namespace TransactionSummary

def new (id : String) : TransactionSummary :=
  ⟨id, 0, 0, 0, 0, none, none, .zero, .zero, 0, ∅, 0, .zero⟩

/-- Enough for a consumer: a name, times, change numbers, records. -/
def isValid (s : TransactionSummary) : Bool :=
  s.id ≠ "" && s.startTime.isSome && s.endTime.isSome && s.startScn ≠ 0 && s.endScn ≠ 0 &&
    !s.startRecordId.isZero && !s.endRecordId.isZero && 0 < s.recordCount

def addScn (scn : Nat) (s : TransactionSummary) : TransactionSummary :=
  if scn = 0 then s
  else { s with startScn := lowered 0 s.startScn scn, endScn := raised s.endScn scn }

def addTime (time : Timestamp) (s : TransactionSummary) : TransactionSummary :=
  { s with
    startTime := some (s.startTime.elim time time.earlier)
    endTime := some (s.endTime.elim time time.later) }

def countSchema (schema : String) (s : TransactionSummary) : TransactionSummary :=
  { s with schemaCounts :=
      s.schemaCounts.insert schema ((s.schemaCounts.get? schema).getD 0 + 1) }

def countRecord (schema : Option String) (s : TransactionSummary) : TransactionSummary :=
  let s := { s with recordCount := s.recordCount + 1 }
  schema.elim s s.countSchema

/-- The summary with one more entry, whose change number and time were read. -/
def add (e : Entry) (o : Observation) (scn : Option Nat) (time : Option Timestamp)
    (s : TransactionSummary) : TransactionSummary :=
  let s := { s with
    startFileId := lowered 0 s.startFileId o.fileId
    endFileId := raised s.endFileId o.fileId
    startRecordId := lowered .zero s.startRecordId o.recordId
    endRecordId := raised s.endRecordId o.recordId
    size := s.size + e.sizeInBytes
    lastOffset := s.lastOffset.later o.offset }
  let s := scn.elim s s.addScn
  let s := time.elim s s.addTime
  if e.kind.isDataBearing then s.countRecord o.schema else s

end TransactionSummary

/-- Summaries in progress by transaction id. -/
abbrev OpenTransactions := Registry String TransactionSummary

/-- The summaries in progress, and the transaction of the last entry that had one. -/
structure Transactions where
  current : Option String
  summaries : OpenTransactions
deriving DecidableEq, Repr

namespace Transactions

def empty : Transactions := ⟨none, ∅⟩

/-- Takes a summary out, to be handed out if it is valid. -/
def finish (t : Transactions) (xid : String) : Transactions × Option TransactionSummary :=
  ({ t with summaries := t.summaries.erase xid },
    (t.summaries.get? xid).filter TransactionSummary.isValid)

/-- Goes over to a transaction, and hands out the one before if that is another. -/
def enter (t : Transactions) (xid : String) : Transactions × Option TransactionSummary :=
  if t.current = some xid then (t, none)
  else
    let entered := { t with current := some xid }
    match t.current with
    | some previous => entered.finish previous
    | none => (entered, none)

def add (t : Transactions) (xid : String) (f : TransactionSummary → TransactionSummary) :
    Transactions :=
  { t with summaries :=
      t.summaries.insert xid (f ((t.summaries.get? xid).getD (.new xid))) }

/-- Folds an entry in. An entry without a transaction changes nothing. -/
def observe (t : Transactions) (e : Entry) (o : Observation) :
    Except Failure (Transactions × Option TransactionSummary) := do
  match ← e.text? .xid with
  | none => return (t, none)
  | some xid =>
    let scn ← e.wide? .scn
    let time := (← e.wide? .timestamp).bind Timestamp.ofUnix?
    let (t, finished) := t.enter xid
    return (t.add xid (TransactionSummary.add e o scn time), finished)

/-- Hands out the current summary whatever follows. -/
def flush (t : Transactions) : Transactions × Option TransactionSummary :=
  match t.current with
  | some xid => { t with current := none }.finish xid
  | none => (t, none)

end Transactions

end ChangeCapture
