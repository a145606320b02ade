import ChangeCapture.Proofs.Shadowing

/-! What is known of transactions, with the tables of their entries or without. Forgetting the tables
commutes with whatever becomes of a summary: an entry adds to what is left of it as much as it would
if its table were unknown. -/
namespace ChangeCapture

/-- The summary, with or without the tables. -/
def TransactionSummary.told (tables : Bool) (s : TransactionSummary) : TransactionSummary :=
  { s with schemaCounts := if tables then s.schemaCounts else ∅ }

/-- The observation, with or without the table. -/
def Observation.told (tables : Bool) (n : Observation) : Observation :=
  { n with schema := if tables then n.schema else none }

variable {tables : Bool}

namespace TransactionSummary

@[simp] theorem isValid_told (s : TransactionSummary) : (s.told tables).isValid = s.isValid := rfl

@[simp] theorem told_new (xid : String) : (new xid).told tables = new xid := by
  cases tables <;> rfl

open Sighting in
theorem told_add (s : TransactionSummary) (e : Entry) (n : Observation) (scn : Option Nat)
    (time : Option Timestamp) :
    (s.told tables).add e (n.told tables) scn time = (s.add e n scn time).told tables := by
  cases tables with
  | true => rfl
  | false =>
    let x (n : Observation) : Sighting := ⟨"", e, n, scn, time⟩
    show foldInto (s.told false) (x (n.told false)) = (foldInto s (x n)).told false
    rw [foldInto_eq, foldInto_eq]
    by_cases data : e.kind.isDataBearing <;>
      simp [x, isData, data, told, Observation.told]

end TransactionSummary

theorem Observation.told_eq {n n' : Observation} (file : n.fileId = n'.fileId)
    (record : n.recordId = n'.recordId) (offset : n.offset = n'.offset)
    (schema : tables = true → n.schema = n'.schema) : n.told tables = n'.told tables := by
  rw [told, told, file, record, offset]
  cases tables with
  | true => rw [schema rfl]
  | false => rfl

namespace Transactions

/-- The transactions, with or without the tables. -/
def told (tables : Bool) (t : Transactions) : Transactions :=
  ⟨t.current, t.summaries.mapValues fun _ s => s.told tables⟩

/-- What is left of the transactions, and of the summary that was handed out. -/
abbrev handed (tables : Bool) :
    Transactions × Option TransactionSummary → Transactions × Option TransactionSummary :=
  Prod.map (told tables) (Option.map (TransactionSummary.told tables))

theorem told_finish (t : Transactions) (xid : String) :
    (t.told tables).finish xid = handed tables (t.finish xid) := by
  have valid (s : Option TransactionSummary) :
      (s.map (TransactionSummary.told tables)).filter TransactionSummary.isValid =
        (s.filter TransactionSummary.isValid).map (TransactionSummary.told tables) := by
    cases s with
    | none => rfl
    | some s => by_cases valid : s.isValid <;> simp [Option.filter, valid]
  simp [finish, told, Registry.mapValues_erase, valid]

theorem told_enter (t : Transactions) (xid : String) :
    (t.told tables).enter xid = handed tables (t.enter xid) := by
  have current : (t.told tables).current = t.current := rfl
  unfold enter
  rw [current]
  split
  · rfl
  · dsimp only
    split
    next previous _ => exact told_finish { t with current := some xid } previous
    · rfl

theorem told_addTo (t : Transactions) (xid : String) (e : Entry) (n : Observation)
    (scn : Option Nat) (time : Option Timestamp) :
    (t.told tables).add xid (TransactionSummary.add e (n.told tables) scn time) =
      (t.add xid (TransactionSummary.add e n scn time)).told tables := by
  have start : ((t.told tables).summaries.get? xid).getD (.new xid) =
      ((t.summaries.get? xid).getD (.new xid)).told tables := by
    rw [told, Registry.get?_mapValues]
    cases t.summaries.get? xid <;> simp
  rw [add, start, TransactionSummary.told_add, add, told, told, Registry.mapValues_insert]

theorem told_observe (t : Transactions) (e : Entry) (n : Observation) :
    (t.told tables).observe e (n.told tables) = (t.observe e n).map (handed tables) := by
  unfold observe
  rcases e.text? .xid with f | _ | xid
  · rfl
  · rfl
  rcases e.wide? .scn with f | scn
  · rfl
  rcases e.wide? .timestamp with f | time
  · rfl
  show Except.ok (((t.told tables).enter xid).1.add xid _, ((t.told tables).enter xid).2) =
    Except.ok (handed tables ((t.enter xid).1.add xid _, (t.enter xid).2))
  rw [told_enter, handed, Prod.map_fst, told_addTo]
  rfl

theorem told_flush (t : Transactions) : (t.told tables).flush = handed tables t.flush := by
  have current : (t.told tables).current = t.current := rfl
  unfold flush
  rw [current]
  split
  next xid _ => exact told_finish { t with current := none } xid
  · rfl

end Transactions

namespace Desk

open ChangeCapture.Action

/-- What a desk has to do with transactions. What is known of tables is left out along with them. -/
structure Account where
  place : FileState
  parts : Parts
  known : Option Catalog
  transactions : Transactions
  summaries : List TransactionSummary

namespace Account

def knowing (tables : Bool) (known : Catalog) (a : Account) : Account :=
  { a with known := if tables then some known else none }

def giving (a : Account) (summaries : List TransactionSummary) : Account :=
  { a with summaries := a.summaries ++ summaries }

/-- The account with one more entry, unless that cannot be read. -/
def observing (e : Entry) (n : Observation) (a : Account) : Account :=
  match a.transactions.observe e n with
  | .error _ => a
  | .ok (t, finished) => { a with transactions := t }.giving finished.toList

theorem knowing_eq {a : Account} {known known' : Catalog} (same : tables = true → known = known') :
    a.knowing tables known = a.knowing tables known' := by
  cases tables with
  | true => rw [same rfl]
  | false => rfl

end Account

/-- The summaries among some records, with or without the tables. -/
def toldSummaries (tables : Bool) (records : List DomainRecord) : List TransactionSummary :=
  (records.filterMap DomainRecord.summary?).map (TransactionSummary.told tables)

@[simp] theorem toldSummaries_append (records more : List DomainRecord) :
    toldSummaries tables (records ++ more) =
      toldSummaries tables records ++ toldSummaries tables more := by
  simp [toldSummaries]

@[simp] theorem toldSummaries_true (records : List DomainRecord) :
    toldSummaries true records = records.filterMap DomainRecord.summary? :=
  List.map_id _

def account (tables : Bool) (d : Desk) : Account where
  place := d.shape.place
  parts := d.state.cache.parts
  known := if tables then some d.known else none
  transactions := d.transactions.told tables
  summaries := toldSummaries tables d.state.batch

theorem account_warn (d : Desk) (warnings : List Warning) :
    (d.warn warnings).account tables = d.account tables := by
  induction warnings generalizing d with
  | nil => rfl
  | cons w warnings ih => exact ih (d.say (.warning w))

theorem account_settle (e : Entry) (announced : Nat) (d : Desk) :
    (settle e announced d).account tables = d.account tables := by
  unfold settle
  dsimp only
  split
  · exact account_warn _ _
  · split
    · exact account_warn _ _
    · rfl

variable {o : StreamOptions}

theorem account_emit (delivering : o.Delivering) (d : Desk) (r : DomainRecord) :
    (d.emit o.gates r).account tables = (d.account tables).giving (toldSummaries tables [r]) := by
  have delivers : o.delivers r = true := by simpa [StreamOptions.delivers] using delivering _
  have state : (d.emit o.gates r).state = (d.addRecord r).state := by
    rw [state_emit, List.filter_cons_of_pos delivers]
    rfl
  have summaries : (d.emit o.gates r).journal.summaries = d.journal.summaries :=
    congrArg (fun d => d.journal.summaries) (core_emit o.gates d r)
  rw [account, shape, known, transactions, state, summaries]
  simp [account, shape, known, transactions, Account.giving, addRecord]

theorem account_emit_other (delivering : o.Delivering) (d : Desk) {r : DomainRecord}
    (other : r.summary? = none) : (d.emit o.gates r).account tables = d.account tables := by
  rw [account_emit delivering, toldSummaries, List.filterMap_cons, other]
  simp [Account.giving]

theorem account_withTransactions (delivering : o.Delivering) (d : Desk) (t : Transactions)
    (finished : Option TransactionSummary) :
    (d.withTransactions o.gates t finished).account tables =
      { d.account tables with transactions := t.told tables }.giving
        (finished.map (TransactionSummary.told tables)).toList := by
  cases finished with
  | none => simp [withTransactions, Account.giving, account, shape, known, transactions, withCache]
  | some s => exact account_emit delivering _ _

/-- An account needs no more of a desk to go on with an entry. -/
theorem account_observe (delivering : o.Delivering) (e : Entry) (n : Observation) (d : Desk) :
    (observe o e n d).2.account tables = (d.account tables).observing e (n.told tables) := by
  have told : (d.account tables).transactions.observe e (n.told tables) = _ :=
    Transactions.told_observe d.transactions e n
  rw [observe_run, Account.observing, told]
  rcases d.transactions.observe e n with f | ⟨t, finished⟩
  · rfl
  · exact account_withTransactions delivering d t finished

theorem account_observe_ok (delivering : o.Delivering) {e : Entry} {n : Observation} {d m : Desk}
    (done : observe o e n d = (.ok (), m)) :
    m.account tables = (d.account tables).observing e (n.told tables) := by
  rw [← account_observe delivering, done]

/-- What is known of tables after a change, if that was decoded. -/
def learned (o : StreamOptions) (d : Desk) (e : Entry) (id : RecordId) (input : GateInput) :
    Catalog :=
  if o.gates .parse input then (d.known.assemble o.config.view id e).catalog else d.known

/-- What is known of tables after a definition, if that was decoded. -/
def defined (o : StreamOptions) (d : Desk) (e : Entry) (input : GateInput) : Catalog :=
  if o.gates .parse input then (d.known.applyMetadata e).toOption.elim d.known Prod.fst else d.known

variable {e : Entry} {id : RecordId} {offset : StreamOffset} {d m : Desk}

theorem account_change (delivering : o.Delivering) (apart : o.config.mergeMultipart = false)
    (done : change o e id offset d = (.ok (), m)) :
    ∃ schema, Catalog.entrySchema d.known.dictionary e = .ok schema ∧
      m.account tables =
        ((d.account tables).knowing tables (d.learned o e id ⟨e.kind, schema, offset⟩)).observing e
          (Observation.told tables ⟨d.state.file.uid, id, offset, schema⟩) := by
  obtain ⟨able, schema, named⟩ := change_able done
  refine ⟨schema, named, ?_⟩
  rw [change_apart apart able named] at done
  unfold learned
  split at done
  next passes =>
    rw [if_pos passes]
    obtain ⟨c, k, assembled, done⟩ := Action.bind_ok done
    obtain ⟨_, l, observed, done⟩ := Action.bind_ok done
    cases done
    rw [account_emit_other delivering _ rfl, account_observe_ok delivering observed]
    rw [assemble_run] at assembled
    obtain ⟨-, rfl⟩ := Prod.mk.inj assembled
    rw [account_warn]
    rfl
  next refused =>
    rw [if_neg refused]
    have observed : m.account tables = _ := account_observe_ok delivering done
    exact observed

theorem account_metadata (delivering : o.Delivering)
    (done : metadata o e offset d = (.ok (), m)) :
    ∃ schema, Catalog.entrySchema d.known.dictionary e = .ok schema ∧
      m.account tables =
        (d.account tables).knowing tables (d.defined o e ⟨e.kind, schema, offset⟩) := by
  obtain ⟨schema, named⟩ : ∃ schema, Catalog.entrySchema d.known.dictionary e = .ok schema := by
    obtain ⟨_, _, got, done⟩ := Action.bind_ok done
    cases got
    obtain ⟨schema, _, named, -⟩ := Action.bind_ok done
    exact ⟨schema, (ofExcept_run named).1⟩
  refine ⟨schema, named, ?_⟩
  rw [metadata_named named] at done
  unfold defined
  split at done
  next passes =>
    rw [if_pos passes]
    obtain ⟨⟨known, document⟩, _, found, done⟩ := Action.bind_ok done
    obtain ⟨applied, rfl⟩ := ofExcept_run found
    rw [applied]
    cases document with
    | none =>
      cases done
      rfl
    | some document =>
      cases done
      exact account_emit_other delivering _ rfl
  next refused =>
    rw [if_neg refused]
    cases done
    rfl

theorem account_flushTransactions (delivering : o.Delivering)
    (nothing : d.state.cache.parts = ∅) :
    (d.flushTransactions o.gates).account tables =
      { d.account tables with
        transactions := (d.account tables).transactions.flush.1 }.giving
          (d.account tables).transactions.flush.2.toList := by
  have flushed : (d.account tables).transactions.flush = _ := Transactions.told_flush d.transactions
  rw [flushed, flushTransactions, release_eq nothing]
  exact account_withTransactions delivering _ _ _

end Desk

end ChangeCapture
