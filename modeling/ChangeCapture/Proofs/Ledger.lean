import ChangeCapture.Proofs.Merging
import ChangeCapture.Proofs.TransactionRuns

/-! What an entry does to rows and summaries, whatever the view and whether or not it is accepted:
the rows that were held go out, then the summary of the transaction before, then its own change.
Only a large-object write leaves rows held. -/
namespace ChangeCapture

/-- What a record is in the order of changes and summaries. -/
inductive Line where
  | change (origin : RecordId × ChangeAction)
  | summary (summary : TransactionSummary)

def Line.origin? : Line → Option (RecordId × ChangeAction)
  | change origin => some origin
  | summary _ => none

/-- The entries that the changes stem from. -/
def origins (lines : List Line) : List (RecordId × ChangeAction) := lines.filterMap Line.origin?

namespace DomainRecord

def line? (r : DomainRecord) : Option Line :=
  match r.data with
  | .metadata _ => none
  | .change c => some (.change c.origin)
  | .transaction s => some (.summary s)

def lines (records : List DomainRecord) : List Line := records.filterMap line?

@[simp] theorem lines_append (records more : List DomainRecord) :
    lines (records ++ more) = lines records ++ lines more := List.filterMap_append

theorem origins_lines (records : List DomainRecord) :
    origins (lines records) = (changes records).map Change.origin := by
  rw [origins, lines, List.filterMap_filterMap, changes, List.map_filterMap]
  congr 1
  funext r
  obtain ⟨offset, _ | _ | _⟩ := r <;> rfl

end DomainRecord

@[simp] theorem origins_append (lines more : List Line) :
    origins (lines ++ more) = origins lines ++ origins more := List.filterMap_append

@[simp] theorem origins_changes (out : List (RecordId × ChangeAction)) :
    origins (out.map .change) = out := by
  rw [origins, List.filterMap_map]
  exact List.filterMap_some

@[simp] theorem origins_summaries (summaries : List TransactionSummary) :
    origins (summaries.map .summary) = [] := by
  rw [origins, List.filterMap_map]
  exact List.filterMap_eq_nil_iff.mpr fun _ _ => rfl

/-- What is held, the transaction at hand, and what has gone out. -/
structure Ledger where
  parts : Parts
  transactions : Transactions
  lines : List Line

def Ledger.add (l : Ledger) (more : List Line) : Ledger := { l with lines := l.lines ++ more }

/-- The ledger once an entry was counted, which may have handed out a summary before it goes out
itself. -/
def Ledger.counted (l : Ledger) (parts : Parts) (t : Transactions)
    (finished : Option TransactionSummary) (own : List (RecordId × ChangeAction)) : Ledger :=
  ⟨parts, t, l.lines ++ (finished.toList.map .summary ++ own.map .change)⟩

theorem Ledger.counted_add (l : Ledger) (parts : Parts) (t : Transactions)
    (finished : Option TransactionSummary) (c : RecordId × ChangeAction) :
    (l.counted parts t finished []).add [.change c] = l.counted parts t finished [c] := by
  simp [counted, add]

namespace Desk

open ChangeCapture.Action DomainRecord

variable {o : StreamOptions}

def ledger (d : Desk) : Ledger := ⟨d.state.cache.parts, d.transactions, lines d.state.batch⟩

theorem ledger_emit (delivering : o.Delivering) (d : Desk) (r : DomainRecord) :
    (d.emit o.gates r).ledger = d.ledger.add r.line?.toList := by
  have core := core_emit o.gates d r
  have parts : (d.emit o.gates r).state.cache.parts = d.state.cache.parts :=
    congrArg (fun c => c.state.cache.parts) core
  have transactions : (d.emit o.gates r).core.transactions = d.core.transactions := by rw [core]
  have delivered : [r].filter o.delivers = [r] :=
    List.filter_cons_of_pos (by simp [StreamOptions.delivers, delivering _])
  have line : lines [r] = r.line?.toList := by
    rw [lines, List.filterMap_cons]
    cases r.line? <;> rfl
  rw [ledger, batch_emit, delivered, lines_append, line, parts]
  exact congrArg (Ledger.mk _ · _) transactions

theorem quiet_ledger (delivering : o.Delivering) : Quiet o ledger where
  say _ _ := rfl
  catalog _ _ := rfl
  features _ _ := rfl
  document d offset document := by
    rw [ledger_emit delivering]
    exact congrArg (Ledger.mk _ _) (List.append_nil _)
  included _ _ := rfl

theorem ledger_withTransactions (delivering : o.Delivering) (d : Desk) (t : Transactions)
    (finished : Option TransactionSummary) :
    (d.withTransactions o.gates t finished).ledger =
      d.ledger.counted d.state.cache.parts t finished [] := by
  cases finished with
  | none => exact congrArg (Ledger.mk _ _) (List.append_nil _).symm
  | some s => exact ledger_emit delivering _ _

theorem ledger_release (delivering : o.Delivering) (d : Desk) :
    (d.release o.gates).ledger =
      { d.ledger.add ((d.state.cache.parts.rows.map ChangeHeader.origin).map .change) with
        parts := d.state.cache.parts.release.1 } := by
  have emitted (held : List HeldRecord) (d : Desk) :
      (held.foldl (fun d h => d.emit o.gates ⟨h.offset, .change (.row h.record)⟩) d).ledger =
        d.ledger.add (held.map (fun h => .change (Change.row h.record).origin)) := by
    induction held generalizing d with
    | nil => exact congrArg (Ledger.mk _ _) (List.append_nil _).symm
    | cons h held ih =>
      rw [List.foldl_cons, ih, ledger_emit delivering]
      exact congrArg (Ledger.mk _ _) (List.append_assoc ..)
  rw [← d.state.cache.parts.released_origin, Parts.released, List.map_map, List.map_map]
  exact emitted _ _

theorem ledger_flushTransactions (delivering : o.Delivering) (d : Desk) :
    (d.flushTransactions o.gates).ledger =
      (d.release o.gates).ledger.counted d.state.cache.parts.release.1 d.transactions.flush.1
        d.transactions.flush.2 [] := by
  have released := ledger_release delivering d
  have same : (d.release o.gates).transactions = d.transactions :=
    congrArg Ledger.transactions released
  have parts : (d.release o.gates).state.cache.parts = d.state.cache.parts.release.1 :=
    congrArg Ledger.parts released
  rw [← same, ← parts]
  exact ledger_withTransactions delivering _ _ _

theorem observe_run (e : Entry) (n : Observation) (d : Desk) :
    observe o e n d = match d.transactions.observe e n with
      | .error f => (.error f, d)
      | .ok (t, finished) => (.ok (), d.withTransactions o.gates t finished) := by
  show (Action.ofExcept (d.transactions.observe e n) >>= _ : Action Desk Unit) d = _
  rw [ofExcept_bind_apply]
  rcases d.transactions.observe e n with f | ⟨t, finished⟩ <;> rfl

end Desk

theorem ChangeHeader.sighted {e : Entry} {id : RecordId} {tableId : Nat} {table : Option Table}
    {header : ChangeHeader} (ok : ofEntry e id tableId table = .ok header) (n : Observation) :
    ∃ x, Sighting.read e n = .ok x := by
  obtain ⟨xid, named, ok⟩ := bind_ok ok
  obtain ⟨scn, numbered, ok⟩ := bind_ok ok
  obtain ⟨time, timed, ok⟩ := bind_ok ok
  rw [Sighting.read, named]
  cases xid with
  | none => exact ⟨none, rfl⟩
  | some xid =>
    refine ⟨some ⟨xid, e, n, scn, time.bind Timestamp.ofUnix?⟩, ?_⟩
    show (e.wide? .scn >>= fun scn => e.wide? .timestamp >>= fun time => _) = _
    rw [numbered, timed]
    rfl

namespace Transactions

open Sighting

theorem observe_within {calls : List Call} {c : Call} {t : Transactions}
    {finished : Option TransactionSummary}
    (seen : (within (runs calls).getLast?).observe c.1 c.2 = .ok (t, finished)) :
    t = within (runs (calls ++ [c])).getLast? ∧
      ∀ s ∈ finished, ∃ run, (runs calls).getLast? = some run ∧ s = summary run := by
  rw [observe_eq] at seen
  rcases found : Sighting.read c.1 c.2 with f | _ | x <;> rw [found] at seen
  · cases seen
  · cases seen
    rw [runs_pass calls c (by rw [found]; rfl)]
    exact ⟨rfl, fun _ member => by cases member⟩
  · dsimp only at seen
    rw [sight_within_last calls c found] at seen
    cases seen
    refine ⟨rfl, fun s member => ?_⟩
    split at member
    · cases member
    · obtain ⟨member, -⟩ := Option.filter_eq_some_iff.mp member
      obtain ⟨run, last, rfl⟩ := Option.map_eq_some_iff.mp member
      exact ⟨run, last, rfl⟩

theorem flush_finished (run : Option (List Sighting)) :
    (within run).flush.2 = (run.map summary).filter TransactionSummary.isValid := by
  cases run with
  | none => rfl
  | some run => simp [flush, within, finish, Registry.get?_single]

theorem observe_same {t t' : Transactions} {e : Entry} {n : Observation}
    {finished : Option TransactionSummary}
    (same : ∀ xid, e.text? .xid = .ok (some xid) → t.current = some xid)
    (seen : t.observe e n = .ok (t', finished)) : finished = none := by
  obtain ⟨xid, named, seen⟩ := bind_ok seen
  cases xid with
  | none =>
    cases seen
    rfl
  | some xid =>
    obtain ⟨_, _, seen⟩ := bind_ok seen
    obtain ⟨_, _, seen⟩ := bind_ok seen
    rw [enter, if_pos (same xid named)] at seen
    cases seen
    rfl

end Transactions

/-- Whether rows are put together from the entries that they come in. -/
def StreamOptions.pairs (o : StreamOptions) : Bool :=
  o.config.view = .row && o.config.mergeMultipart

namespace Parts

/-- A large-object write that does not fit disturbs no row that is held. -/
theorem extends_of_refused {p p' : Parts} {table : Option Table} {offset : StreamOffset}
    {r : ChangeRecord} {f : Failure} (lob : r.isLobWrite)
    (failed : p.offer table offset r = (p', .error f)) : p.Extends p' := by
  rw [offer, if_pos lob, offerLobWrite] at failed
  split at failed
  · cases failed
  next held known =>
    split at failed
    · cases failed
    next record conflict adopted =>
      cases failed
      exact extends_insert known (congrArg (fun x => x.1.header) adopted).symm

/-- A row that what is held does not fit leaves nothing but large-object writes. -/
theorem settled_of_refused {p p' : Parts} {table : Option Table} {offset : StreamOffset}
    {r : ChangeRecord} {f : Failure} (other : r.isLobWrite = false) (settled : p.Settled)
    (failed : p.offer table offset r = (p', .error f)) : p'.Settled := by
  rw [offer, if_neg (by simp [other])] at failed
  split at failed
  · rw [offerRowChange] at failed
    split at failed
    · split at failed
      · cases failed
      · cases failed
        exact settled_erase settled _
    · split at failed <;> cases failed
  · cases failed

end Parts

/-- What becomes of a change that is offered, and what is held after it. -/
inductive Offers (o : StreamOptions) (p : Parts) (c : Change) :
    Parts → Except Failure (Offered Change) → Prop where
  | apart : o.pairs = false → Offers o p c p (.ok (.emitted c))
  | row {r table offset parts x} : o.pairs → c = .row r → p.offer table offset r = (parts, x) →
      Offers o p c parts (x.map (Offered.map .row))

namespace Desk

open ChangeCapture.Action DomainRecord

variable {o : StreamOptions}

/-- What is done about a change once it was offered, and what is held then. -/
inductive Disposes (e : Entry) (n : Observation) (d : Desk) (parts : Parts) :
    Except Failure (Offered Change) → Except Failure Unit → Ledger → Prop where
  | conflict (f) : Disposes e n d parts (.error f) (.error f) { d.ledger with parts }
  | fragment : Disposes e n d parts (.ok .fragment) (.ok ()) { d.ledger with parts }
  | held {t finished} : d.transactions.observe e n = .ok (t, finished) →
      Disposes e n d parts (.ok .held) (.ok ()) (d.ledger.counted parts t finished [])
  | emitted {c t finished} : d.transactions.observe e n = .ok (t, finished) →
      Disposes e n d parts (.ok (.emitted c)) (.ok ())
        (d.ledger.counted parts t finished [c.origin])

/-- What a change entry does to the ledger that it finds. -/
inductive Changes (o : StreamOptions) (e : Entry) (id : RecordId) (offset : StreamOffset)
    (d : Desk) : Except Failure Unit → Ledger → Prop where
  | refused (f) : Changes o e id offset d (.error f) d.ledger
  /-- The parse gate keeps the entry from being decoded. -/
  | overlooked {schema t finished} :
      Catalog.entrySchema d.state.cache.catalog.dictionary e = .ok schema →
      o.gates .parse ⟨e.kind, schema, offset⟩ = false →
      d.transactions.observe e ⟨d.state.file.uid, id, offset, schema⟩ = .ok (t, finished) →
      Changes o e id offset d (.ok ()) (d.ledger.counted d.state.cache.parts t finished [])
  | decoded {schema c parts x result l} :
      Catalog.entrySchema d.state.cache.catalog.dictionary e = .ok schema →
      o.gates .parse ⟨e.kind, schema, offset⟩ = true → c.OfEntry e id o.config.view →
      Offers o d.state.cache.parts c parts x →
      Disposes e ⟨d.state.file.uid, id, offset, schema⟩ d parts x result l →
      Changes o e id offset d result l

/-- Offering a change does nothing but to what is held. -/
theorem offer_run (offset : StreamOffset) {c : Change} (view : c.view = o.config.view) (d : Desk) :
    ∃ parts, Offers o d.state.cache.parts c parts (offer o offset c d).1 ∧
      (offer o offset c d).2 = d.withCache { d.state.cache with parts } := by
  cases c with
  | vector v =>
    have apart : o.pairs = false := by simp [StreamOptions.pairs, ← view, Change.view]
    exact ⟨_, .apart apart, rfl⟩
  | row r =>
    cases merges : o.config.mergeMultipart with
    | false =>
      have apart : o.pairs = false := by simp [StreamOptions.pairs, merges]
      unfold offer
      dsimp only
      rw [if_neg (by rw [merges]; decide)]
      exact ⟨_, .apart apart, rfl⟩
    | true =>
      have pairs : o.pairs = true := by simp [StreamOptions.pairs, merges, ← view, Change.view]
      let offered := d.state.cache.parts.offer
        (d.state.cache.catalog.dictionary.get? r.header.tableId) offset r
      have run : offer o offset (.row r) d = (offered.2.map (Offered.map .row),
          d.withCache { d.state.cache with parts := offered.1 }) := by
        unfold offer
        dsimp only
        rw [if_pos merges]
        show (Action.ofExcept offered.2 >>= fun x => pure (x.map .row) :
          Action Desk (Offered Change)) (d.withCache { d.state.cache with parts := offered.1 }) = _
        rw [ofExcept_bind_apply]
        cases offered.2 <;> rfl
      rw [run]
      exact ⟨_, .row pairs rfl rfl, rfl⟩

theorem observe_given {e : Entry} {id : RecordId} {view : ChangeView} {c : Change}
    (given : c.OfEntry e id view) (n : Observation) (d : Desk) :
    ∃ t finished, d.transactions.observe e n = .ok (t, finished) ∧
      observe o e n d = (.ok (), d.withTransactions o.gates t finished) := by
  obtain ⟨_, _, header⟩ := given.header
  obtain ⟨x, read⟩ := ChangeHeader.sighted header n
  have seen : ∃ t finished, d.transactions.observe e n = .ok (t, finished) := by
    rw [Transactions.observe_eq, read]
    cases x <;> exact ⟨_, _, rfl⟩
  obtain ⟨t, finished, seen⟩ := seen
  exact ⟨t, finished, seen, by rw [observe_run, seen]⟩

theorem disposes_run (delivering : o.Delivering) {e : Entry} {n : Observation} {c : Change}
    {id : RecordId} {view : ChangeView} (given : c.OfEntry e id view) {offset : StreamOffset}
    {parts : Parts} {d m d' : Desk} (left : m.ledger = { d.ledger with parts })
    {x : Offered Change} {result : Except Failure Unit}
    (run : (match x with
      | .fragment => pure ()
      | .held => observe o e n
      | .emitted change => do
        observe o e n
        modify (fun d => d.emit o.gates ⟨offset, .change change⟩) : Action Desk Unit) m =
          (result, d')) : Disposes e n d parts (.ok x) result d'.ledger := by
  obtain ⟨t, finished, seen, observed⟩ := observe_given (o := o) given n m
  have same : m.transactions = d.transactions := congrArg Ledger.transactions left
  have held : m.state.cache.parts = parts := congrArg Ledger.parts left
  rw [same] at seen
  cases x with
  | fragment =>
    cases run
    exact left ▸ .fragment
  | held =>
    dsimp only at run
    rw [observed] at run
    cases run
    rw [ledger_withTransactions delivering, left, held]
    exact .held seen
  | emitted c' =>
    dsimp only at run
    rw [bind_apply, observed] at run
    cases run
    rw [ledger_emit delivering, ledger_withTransactions delivering, left, held]
    exact Ledger.counted_add .. ▸ .emitted seen

theorem change_run (delivering : o.Delivering) {e : Entry} {id : RecordId} {offset : StreamOffset}
    {d d' : Desk} {result : Except Failure Unit} (run : change o e id offset d = (result, d')) :
    Changes o e id offset d result d'.ledger := by
  have quiet := quiet_ledger delivering
  rcases Action.bind_run run with ⟨_, got, -⟩ | ⟨_, _, got, run⟩ <;> cases got
  dsimp only at run
  split at run
  · cases run
    exact .refused _
  rcases Action.bind_run run with ⟨f, known, rfl⟩ | ⟨schema, d, known, run⟩ <;>
    obtain ⟨named, rfl⟩ := ofExcept_run known
  · exact .refused f
  rw [bind_apply, parses_apply] at run
  dsimp only at run
  have asked : (d.asked o.gates .parse ⟨e.kind, schema, offset⟩).ledger = d.ledger :=
    quiet.say d _
  cases passes : o.gates .parse ⟨e.kind, schema, offset⟩ with
  | false =>
    rw [passes, if_neg nofun, observe_run] at run
    have same : (d.asked o.gates .parse ⟨e.kind, schema, offset⟩).transactions =
        d.transactions := congrArg Ledger.transactions asked
    rw [same] at run
    rcases seen : d.transactions.observe e ⟨d.state.file.uid, id, offset, schema⟩ with
      f | ⟨t, finished⟩ <;> rw [seen] at run <;> cases run
    · exact .refused f
    · rw [ledger_withTransactions delivering, asked]
      exact .overlooked named passes seen
  | true =>
    rw [passes, if_pos rfl] at run
    rcases Action.bind_run run with ⟨f, failed, rfl⟩ | ⟨c, m, decoded, run⟩
    · have kept := (quiet.assemble e id).eq failed
      rw [kept]
      exact .refused f
    have given := assembled decoded
    have kept : m.ledger = d.ledger := ((quiet.assemble e id).eq decoded).trans asked
    have held : m.state.cache.parts = d.state.cache.parts := congrArg Ledger.parts kept
    obtain ⟨parts, offers, after⟩ := offer_run offset given.view m
    rw [held] at offers
    refine .decoded named passes given offers ?_
    have left : (m.withCache { m.state.cache with parts }).ledger = { d.ledger with parts } :=
      congrArg (fun l : Ledger => { l with parts }) kept
    rw [← after] at left
    rcases offered : offer o offset c m with ⟨f | x, m'⟩ <;> rw [offered] at left <;>
      rw [bind_apply, offered] at run
    · cases run
      exact left ▸ .conflict f
    · exact disposes_run delivering given left run

/-- Entries outside of transactions do nothing that a quiet part of a desk would show, apart from the
phase that footers and included files leave. -/
theorem Quiet.perform {p : Desk → γ} (quiet : Quiet o p)
    (phase : ∀ d phase, p ⟨{ d.state with phase }, d.journal⟩ = p d) {e : Entry}
    (other : e.kind.isTransactional = false) (id : RecordId) (offset : StreamOffset) :
    Keeps p (perform o e id offset) := by
  have nothing {x : Action Desk Unit} (keeps : Keeps p x) :
      Keeps p (x >>= fun _ => pure none : Action Desk (Option Included)) :=
    keeps.bind fun _ => .pure _
  unfold Desk.perform
  split
  · exact nothing (.modify fun d => quiet.warn d _)
  · exact nothing (quiet.header e)
  · exact nothing (.modify fun d => phase d _)
  · exact nothing (quiet.metadata e offset)
  next commit => simp [commit, EntryKind.isTransactional] at other
  · refine Keeps.bind (fun d => ?_) fun _ => .pure _
    rw [includeFile_apply]
    split
    · exact (quiet.included ⟨{ d.state with phase := .paused }, d.journal⟩ none).trans (phase d _)
    · rfl
  · exact nothing (quiet.includeStats e)
  · cases kind : e.kind <;> simp_all [EntryKind.isTransactional, EntryKind.isChange,
      EntryKind.isDataBearing]

/-- Entries that belong to no transaction do nothing to rows and summaries. -/
theorem keeps_ledger_perform (delivering : o.Delivering) {e : Entry}
    (other : e.kind.isTransactional = false) (id : RecordId) (offset : StreamOffset) :
    Keeps ledger (perform o e id offset) :=
  (quiet_ledger delivering).perform (fun _ _ => rfl) other id offset

@[simp] theorem file_cleared (o : StreamOptions) (e : Entry) (d : Desk) :
    (d.cleared o e).state.file = d.state.file :=
  cleared_keeps o (p := fun d => d.state.file)
    (fun d r => congrArg (fun d => d.state.file) (core_emit o.gates d r)) (fun _ _ => rfl)
    (fun _ _ => rfl) e d

end Desk

theorem Change.OfEntry.lobWrite_iff {e : Entry} {id : RecordId} {view : ChangeView} {c : Change}
    (given : c.OfEntry e id view) : c.header.action = .lobWrite ↔ e.kind = .lobWrite := by
  have action : c.header.action = .ofKind e.kind := congrArg Prod.snd given.origin
  rw [action]
  cases e.kind <;> decide

/-- What is held after a change that is no large-object write, if no row was held before. -/
def LeftByRow (o : StreamOptions) (c : Change) (parts : Parts) :
    Except Failure (Offered Change) → Prop
  | .error _ => parts.Settled
  | .ok .fragment => False
  | .ok .held => o.pairs = true ∧ parts.rows = [c.header] ∧ parts.Tidy
  | .ok (.emitted c') => parts.Settled ∧ c'.origin = c.origin

/-- What is held after a large-object write. -/
def LeftByLobWrite (o : StreamOptions) (p : Parts) (c : Change) (parts : Parts) :
    Except Failure (Offered Change) → Prop
  | .error _ => o.pairs = true ∧ p.Extends parts
  | .ok .fragment => o.pairs = true ∧ p.Extends parts
  | .ok .held => False
  | .ok (.emitted c') => o.pairs = false ∧ parts = p ∧ c' = c

theorem Offers.row_leaves {o : StreamOptions} {p parts : Parts} {c : Change}
    {x : Except Failure (Offered Change)} (offers : Offers o p c parts x)
    (other : c.header.action ≠ .lobWrite) (settled : p.Settled) : LeftByRow o c parts x := by
  cases offers with
  | apart => exact ⟨settled, rfl⟩
  | @row r _ _ _ x pairs same offered =>
    subst same
    have notLob : r.isLobWrite = false := decide_eq_false other
    cases x with
    | error f => exact Parts.settled_of_refused notLob settled offered
    | ok x =>
      cases Parts.offer_settles notLob settled offered with
      | emitted same _ after => exact ⟨after, congrArg ChangeHeader.origin same⟩
      | held rows tidy _ => exact ⟨pairs, rows, tidy⟩

theorem Offers.lobWrite_leaves {o : StreamOptions} {p parts : Parts} {c : Change}
    {x : Except Failure (Offered Change)} (offers : Offers o p c parts x)
    (lob : c.header.action = .lobWrite) : LeftByLobWrite o p c parts x := by
  cases offers with
  | apart apart => exact ⟨apart, rfl, rfl⟩
  | @row r _ _ _ x pairs same offered =>
    subst same
    have isLob : r.isLobWrite := decide_eq_true lob
    cases x with
    | error f => exact ⟨pairs, Parts.extends_of_refused isLob offered⟩
    | ok x =>
      obtain ⟨rfl, extends_⟩ := Parts.offer_lobWrite isLob offered
      exact ⟨pairs, extends_⟩

/-- Changes, a summary perhaps, and changes again: there is one place for a summary. -/
theorem split_summary {released own : List (RecordId × ChangeAction)}
    {finished : Option TransactionSummary} {before after : List Line} {s : TransactionSummary}
    (split : released.map .change ++ (finished.toList.map .summary ++ own.map .change) =
      before ++ .summary s :: after) : before = released.map .change ∧ finished = some s := by
  have apart {before : List Line} : own.map .change ≠ before ++ .summary s :: after := by
    intro same
    have member : Line.summary s ∈ own.map .change := same ▸ by simp
    obtain ⟨_, _, other⟩ := List.mem_map.mp member
    cases other
  induction released generalizing before with
  | nil =>
    cases finished with
    | none => exact absurd split apart
    | some s' =>
      cases before with
      | nil =>
        cases split
        exact ⟨rfl, rfl⟩
      | cons _ before => exact absurd (List.cons.inj split).2 apart
  | cons r released ih =>
    cases before with
    | nil => cases split
    | cons l before =>
      obtain ⟨first, rest⟩ := List.cons.inj split
      obtain ⟨before_, last⟩ := ih rest
      exact ⟨by rw [← first, before_, List.map_cons], last⟩

namespace Processed

open DomainRecord Sighting

variable (o : StreamOptions) (p : Processed)

def accepted : Bool := (p.result o).isOk

/-- Whether the entry only adds to another record. -/
def joins : Bool := p.entry.kind = .lobWrite && p.decoded o && o.pairs

/-- The entry as the one that a record stems from, unless it fails or only adds to another one. -/
def sources : List (RecordId × ChangeAction) :=
  if p.accepted o && p.decoded o && !p.joins o then [(p.desk.nextId, .ofKind p.entry.kind)] else []

def observation : Observation where
  fileId := p.desk.state.file.uid
  recordId := p.desk.nextId
  offset := p.desk.reported p.entry
  schema :=
    if p.entry.kind = .commit then none
    else (Catalog.entrySchema p.desk.state.cache.catalog.dictionary p.entry).toOption.join

/-- The entry as it is counted in its transaction, if it is. -/
def calls : List Call :=
  if p.accepted o && p.entry.kind.isTransactional && !p.joins o then [(p.entry, p.observation)]
  else []

/-- A large-object write that is not decoded and belongs to another transaction comes while a row is
held. -/
structure Overtakes : Prop where
  lobWrite : p.entry.kind = .lobWrite
  held : p.parts.rows ≠ []
  refused : ∃ schema,
    Catalog.entrySchema p.desk.state.cache.catalog.dictionary p.entry = .ok schema ∧
    o.gates .parse ⟨p.entry.kind, schema, p.desk.reported p.entry⟩ = false
  other : ∃ xid, p.entry.text? .xid = .ok (some xid) ∧ p.desk.transactions.current ≠ some xid

/-- What an entry does to rows and summaries after some entries have been counted. -/
structure Posts (seen : List Call) : Prop where
  balance : origins (lines (p.records o)) ++ (p.partsAfter o).rows.map ChangeHeader.origin =
    p.parts.rows.map ChangeHeader.origin ++ p.sources o
  /-- A summary finds the rows gone that were held. -/
  order : ∀ before s after, lines (p.records o) = before ++ .summary s :: after →
    origins before = p.parts.rows.map ChangeHeader.origin ∧
      ∃ run, (runs seen).getLast? = some run ∧ s = summary run
  transactions : (p.after o).transactions = .within (runs (seen ++ p.calls o)).getLast?
  tidy : (p.partsAfter o).Tidy
  apart : o.pairs = false → (p.partsAfter o).Settled

variable {o p} {seen : List Call}

/-- What an entry finds: the rows that it cannot complete have gone out. -/
structure Finds (o : StreamOptions) (p : Processed) (released : List (RecordId × ChangeAction)) :
    Prop where
  ledger : (p.desk.cleared o p.entry).ledger =
    ⟨(p.desk.cleared o p.entry).state.cache.parts, p.desk.transactions, released.map .change⟩
  rows : p.parts.rows.map ChangeHeader.origin =
    released ++ (p.desk.cleared o p.entry).state.cache.parts.rows.map ChangeHeader.origin
  tidy : (p.desk.cleared o p.entry).state.cache.parts.Tidy
  settled : p.entry.kind ≠ .lobWrite → (p.desk.cleared o p.entry).state.cache.parts.Settled
  same : p.entry.kind = .lobWrite → (p.desk.cleared o p.entry).state.cache.parts = p.parts

theorem finds (delivering : o.Delivering) (empty : p.desk.state.batch = []) (tidy : p.parts.Tidy) :
    ∃ released, Finds o p released := by
  have counted : p.desk.counted.ledger = p.desk.ledger := rfl
  by_cases lob : p.entry.kind = .lobWrite
  · refine ⟨[], ?_⟩
    have cleared : p.desk.cleared o p.entry = p.desk.counted := if_neg (not_not_intro lob)
    refine ⟨?_, ?_, ?_, fun other => absurd lob other, fun _ => ?_⟩
    all_goals rw [cleared]
    · rw [counted, Desk.ledger, empty]
      rfl
    · rfl
    · exact tidy
    · rfl
  · refine ⟨p.parts.rows.map ChangeHeader.origin, ?_⟩
    have cleared : p.desk.cleared o p.entry = p.desk.counted.release o.gates := if_pos lob
    have ledger := Desk.ledger_release delivering p.desk.counted
    rw [← cleared, counted] at ledger
    have parts : (p.desk.cleared o p.entry).state.cache.parts = p.parts.release.1 :=
      congrArg Ledger.parts ledger
    have settled : (p.desk.cleared o p.entry).state.cache.parts.Settled :=
      parts ▸ Parts.release_settled tidy
    refine ⟨?_, ?_, settled.tidy, fun _ => settled, fun same => absurd same lob⟩
    · rw [ledger, parts]
      simp only [Desk.ledger, empty, Ledger.add]
      rfl
    · rw [settled.rows, List.map_nil, List.append_nil]

/-- What an entry comes to from what it finds: perhaps a summary, perhaps a change of its own. -/
theorem Finds.posts {released : List (RecordId × ChangeAction)} {parts : Parts} {t : Transactions}
    (finds : Finds o p released) (finished : Option TransactionSummary)
    (own : List (RecordId × ChangeAction))
    (ledger : (p.after o).ledger =
      ⟨parts, t, released.map .change ++ (finished.toList.map .summary ++ own.map .change)⟩)
    (balance : own ++ parts.rows.map ChangeHeader.origin =
      (p.desk.cleared o p.entry).state.cache.parts.rows.map ChangeHeader.origin ++ p.sources o)
    (gone : ∀ s ∈ finished, (p.desk.cleared o p.entry).state.cache.parts.rows = [] ∧
      ∃ run, (runs seen).getLast? = some run ∧ s = summary run)
    (transactions : t = .within (runs (seen ++ p.calls o)).getLast?) (tidy : parts.Tidy)
    (apart : o.pairs = false → parts.Settled) : p.Posts o seen := by
  have lines : DomainRecord.lines (p.records o) = _ := congrArg Ledger.lines ledger
  have partsAfter : p.partsAfter o = parts := congrArg Ledger.parts ledger
  constructor
  case balance =>
    rw [lines, partsAfter, finds.rows]
    simp [balance]
  case order =>
    intro before s after split
    rw [lines] at split
    obtain ⟨rfl, last⟩ := split_summary split
    obtain ⟨rows, run⟩ := gone s last
    refine ⟨?_, run⟩
    rw [finds.rows, rows]
    simp
  case transactions => exact (congrArg Ledger.transactions ledger).trans transactions
  case tidy => rwa [partsAfter]
  case apart => rwa [partsAfter]

theorem sources_of_refused (refused : p.accepted o = false) : p.sources o = [] := by
  simp [sources, refused]

theorem calls_of_refused (refused : p.accepted o = false) : p.calls o = [] := by
  simp [calls, refused]

theorem Finds.posts_idle {released : List (RecordId × ChangeAction)} {parts : Parts}
    (finds : Finds o p released)
    (ledger : (p.after o).ledger = { (p.desk.cleared o p.entry).ledger with parts })
    (rows : parts.rows = (p.desk.cleared o p.entry).state.cache.parts.rows)
    (sources : p.sources o = []) (calls : p.calls o = [])
    (transactions : p.desk.transactions = .within (runs seen).getLast?) (tidy : parts.Tidy)
    (apart : o.pairs = false → parts.Settled) : p.Posts o seen := by
  rw [finds.ledger] at ledger
  refine finds.posts none [] (by simpa using ledger) ?_ (fun _ member => by cases member) ?_
    tidy apart
  · rw [sources, rows, List.append_nil, List.nil_append]
  · rw [calls, List.append_nil]
    exact transactions

theorem change_ended (change : p.entry.kind.isChange) :
    ∃ result, Desk.change o p.entry p.desk.nextId (p.desk.reported p.entry)
      (p.desk.cleared o p.entry) = (result, p.after o) ∧ p.accepted o = result.isOk := by
  have done : Desk.process o p.entry p.desk = (p.result o, p.after o) := rfl
  rw [Desk.process_apply, Desk.perform_change o change] at done
  rw [accepted]
  generalize p.result o = result, p.after o = d at done ⊢
  rcases Action.bind_run done with ⟨f, failed, rfl⟩ | ⟨_, _, ok, ended⟩
  · exact ⟨_, failed, rfl⟩
  · cases ended
    exact ⟨_, ok, rfl⟩

theorem decoded_of_named (change : p.entry.kind.isChange) {schema : Option String}
    (named : Catalog.entrySchema (p.desk.cleared o p.entry).state.cache.catalog.dictionary p.entry =
      .ok schema) :
    p.decoded o = o.gates .parse ⟨p.entry.kind, schema, p.desk.reported p.entry⟩ := by
  rw [Desk.catalog_cleared] at named
  simp [decoded, change, named]

theorem observation_of_named (change : p.entry.kind.isChange) {schema : Option String}
    (named : Catalog.entrySchema (p.desk.cleared o p.entry).state.cache.catalog.dictionary p.entry =
      .ok schema) :
    (⟨(p.desk.cleared o p.entry).state.file.uid, p.desk.nextId, p.desk.reported p.entry, schema⟩ :
      Observation) = p.observation := by
  have other : p.entry.kind ≠ .commit := by
    intro commit
    rw [commit] at change
    cases change
  rw [Desk.catalog_cleared] at named
  simp [observation, other, named, Except.toOption]

theorem calls_of_counted (accepted : p.accepted o) (transactional : p.entry.kind.isTransactional)
    (counted : p.joins o = false) : p.calls o = [(p.entry, p.observation)] := by
  simp [calls, accepted, transactional, counted]

theorem sources_of_decoded (accepted : p.accepted o) (decoded : p.decoded o)
    (counted : p.joins o = false) :
    p.sources o = [(p.desk.nextId, .ofKind p.entry.kind)] := by
  simp [sources, accepted, decoded, counted]

theorem Finds.handed {released : List (RecordId × ChangeAction)} {t : Transactions}
    {finished : Option TransactionSummary} (finds : Finds o p released)
    (transactions : p.desk.transactions = .within (runs seen).getLast?)
    (observed : (p.desk.cleared o p.entry).transactions.observe p.entry p.observation =
      .ok (t, finished)) (calls : p.calls o = [(p.entry, p.observation)]) :
    t = .within (runs (seen ++ p.calls o)).getLast? ∧
      ∀ s ∈ finished, ∃ run, (runs seen).getLast? = some run ∧ s = summary run := by
  have same : (p.desk.cleared o p.entry).transactions = p.desk.transactions :=
    congrArg Ledger.transactions finds.ledger
  rw [same, transactions] at observed
  rw [calls]
  exact Transactions.observe_within (c := (p.entry, p.observation)) observed

section Found

variable {released : List (RecordId × ChangeAction)} (finds : Finds o p released)
variable (transactions : p.desk.transactions = .within (runs seen).getLast?)
include finds transactions

theorem Finds.posts_refused (refused : p.accepted o = false)
    (left : (p.after o).ledger = (p.desk.cleared o p.entry).ledger)
    (apart : o.pairs = false → (p.desk.cleared o p.entry).state.cache.parts.Settled) :
    p.Posts o seen :=
  finds.posts_idle (by rw [left]; rfl) rfl (sources_of_refused refused) (calls_of_refused refused)
    transactions finds.tidy apart

theorem Finds.posts_counted {parts : Parts} {t : Transactions}
    {finished : Option TransactionSummary} {own : List (RecordId × ChangeAction)}
    (observed : (p.desk.cleared o p.entry).transactions.observe p.entry p.observation =
      .ok (t, finished))
    (calls : p.calls o = [(p.entry, p.observation)])
    (left : (p.after o).ledger = (p.desk.cleared o p.entry).ledger.counted parts t finished own)
    (balance : own ++ parts.rows.map ChangeHeader.origin =
      (p.desk.cleared o p.entry).state.cache.parts.rows.map ChangeHeader.origin ++ p.sources o)
    (gone : ∀ s ∈ finished, (p.desk.cleared o p.entry).state.cache.parts.rows = [])
    (tidy : parts.Tidy) (apart : o.pairs = false → parts.Settled) : p.Posts o seen := by
  obtain ⟨after, handed⟩ := finds.handed transactions observed calls
  rw [finds.ledger] at left
  exact finds.posts finished own left balance
    (fun s member => ⟨gone s member, handed s member⟩) after tidy apart

/-- Whether a large-object write fits or not, what is held is the same but for large objects. -/
theorem Finds.posts_joined {parts : Parts} (pairs : o.pairs)
    (extends_ : (p.desk.cleared o p.entry).state.cache.parts.Extends parts)
    (left : (p.after o).ledger = { (p.desk.cleared o p.entry).ledger with parts })
    (sources : p.sources o = []) (calls : p.calls o = []) : p.Posts o seen :=
  finds.posts_idle left extends_.rows sources calls transactions (extends_.tidy finds.tidy)
    fun unpaired => by rw [pairs] at unpaired; cases unpaired

theorem Finds.posts_overlooked (change : p.entry.kind.isChange) {schema : Option String}
    {t : Transactions} {finished : Option TransactionSummary}
    (named : Catalog.entrySchema (p.desk.cleared o p.entry).state.cache.catalog.dictionary p.entry =
      .ok schema)
    (refused : o.gates .parse ⟨p.entry.kind, schema, p.desk.reported p.entry⟩ = false)
    (observed : (p.desk.cleared o p.entry).transactions.observe p.entry p.observation =
      .ok (t, finished))
    (accepted : p.accepted o) (left : (p.after o).ledger = (p.desk.cleared o p.entry).ledger.counted
      (p.desk.cleared o p.entry).state.cache.parts t finished [])
    (gone : ∀ s ∈ finished, (p.desk.cleared o p.entry).state.cache.parts.rows = [])
    (apart : o.pairs = false → (p.desk.cleared o p.entry).state.cache.parts.Settled) :
    p.Posts o seen := by
  have undecoded : p.decoded o = false := (decoded_of_named change named).trans refused
  have calls : p.calls o = [(p.entry, p.observation)] :=
    calls_of_counted accepted (by simp [EntryKind.isTransactional, change])
      (by simp [joins, undecoded])
  exact finds.posts_counted transactions observed calls left (by simp [sources, undecoded]) gone
    finds.tidy apart

theorem Finds.posts_row (delivering : o.Delivering) (change : p.entry.kind.isChange)
    (other : p.entry.kind ≠ .lobWrite) : p.Posts o seen := by
  obtain ⟨result, run, accepted⟩ := change_ended (o := o) change
  have changes := Desk.change_run delivering run
  have calls (ok : p.accepted o) : p.calls o = [(p.entry, p.observation)] :=
    calls_of_counted ok (by simp [EntryKind.isTransactional, change]) (by simp [joins, other])
  have settled := finds.settled other
  have gone {finished : Option TransactionSummary} : ∀ s ∈ finished,
      (p.desk.cleared o p.entry).state.cache.parts.rows = [] := fun _ _ => settled.rows
  generalize left : (p.after o).ledger = l at changes
  cases changes with
  | refused f => exact finds.posts_refused transactions accepted left fun _ => settled
  | overlooked named passes observed =>
    rw [observation_of_named change named] at observed
    exact finds.posts_overlooked transactions change named passes observed accepted left gone
      fun _ => settled
  | decoded named passes given offers disposes =>
    have decoded : p.decoded o = true := (decoded_of_named change named).trans passes
    have leaves := offers.row_leaves (mt given.lobWrite_iff.mp other) settled
    have sources (ok : p.accepted o) := sources_of_decoded ok decoded (by simp [joins, other])
    rw [observation_of_named change named] at disposes
    cases disposes with
    | conflict f =>
      have after : Parts.Settled _ := leaves
      exact finds.posts_idle left (after.rows.trans settled.rows.symm) (sources_of_refused accepted)
        (calls_of_refused accepted) transactions after.tidy fun _ => after
    | fragment => exact leaves.elim
    | held observed =>
      obtain ⟨pairs, rows, tidy⟩ := leaves
      refine finds.posts_counted transactions observed (calls accepted) left ?_ gone tidy
        fun unpaired => by rw [pairs] at unpaired; cases unpaired
      rw [sources accepted, rows, settled.rows]
      exact congrArg (fun origin => [origin]) given.origin
    | emitted observed =>
      obtain ⟨after, same⟩ := leaves
      refine finds.posts_counted transactions observed (calls accepted) left ?_ gone after.tidy
        fun _ => after
      rw [sources accepted, after.rows, settled.rows, same]
      exact congrArg (fun origin => [origin]) given.origin

theorem Finds.posts_lobWrite (delivering : o.Delivering) (lob : p.entry.kind = .lobWrite)
    (apart : o.pairs = false → p.parts.Settled) (inTime : ¬ p.Overtakes o) : p.Posts o seen := by
  have change : p.entry.kind.isChange := by rw [lob]; rfl
  obtain ⟨result, run, accepted⟩ := change_ended (o := o) change
  have changes := Desk.change_run delivering run
  have same := finds.same lob
  generalize left : (p.after o).ledger = l at changes
  cases changes with
  | refused f => exact finds.posts_refused transactions accepted left (same ▸ apart)
  | overlooked named passes observed =>
    rw [observation_of_named change named] at observed
    refine finds.posts_overlooked transactions change named passes observed accepted left
      (fun s member => ?_) (same ▸ apart)
    by_contra held
    have found : (p.desk.cleared o p.entry).transactions = p.desk.transactions :=
      congrArg Ledger.transactions finds.ledger
    rw [same] at held
    rw [found] at observed
    rw [Desk.catalog_cleared] at named
    have nothing := Transactions.observe_same (fun xid known => by
      by_contra other
      exact inTime ⟨lob, held, ⟨_, named, passes⟩, xid, known, other⟩) observed
    rw [nothing] at member
    cases member
  | decoded named passes given offers disposes =>
    have decoded : p.decoded o = true := (decoded_of_named change named).trans passes
    have leaves := offers.lobWrite_leaves (given.lobWrite_iff.mpr lob)
    rw [observation_of_named change named] at disposes
    cases disposes with
    | conflict f =>
      exact finds.posts_joined transactions leaves.1 leaves.2 left (sources_of_refused accepted)
        (calls_of_refused accepted)
    | fragment =>
      have joins : p.joins o = true := by simp [joins, lob, decoded, leaves.1]
      exact finds.posts_joined transactions leaves.1 leaves.2 left (by simp [sources, joins])
        (by simp [calls, joins])
    | held => exact leaves.elim
    | emitted observed =>
      obtain ⟨unpaired, rfl, rfl⟩ := leaves
      have counted : p.joins o = false := by simp [joins, unpaired]
      have settled := apart unpaired
      rw [← same] at settled
      have calls := calls_of_counted accepted (by rw [lob]; rfl) counted
      refine finds.posts_counted transactions observed calls left ?_
        (fun _ _ => settled.rows) settled.tidy fun _ => settled
      rw [sources_of_decoded accepted decoded counted, settled.rows]
      exact congrArg (fun origin => [origin]) given.origin

theorem Finds.posts_commit (delivering : o.Delivering) (commit : p.entry.kind = .commit) :
    p.Posts o seen := by
  have settled := finds.settled (by rw [commit]; nofun)
  have observation : (⟨(p.desk.cleared o p.entry).state.file.uid, p.desk.nextId,
      p.desk.reported p.entry, none⟩ : Observation) = p.observation := by
    simp [observation, commit]
  have done : Desk.process o p.entry p.desk = (p.result o, p.after o) := rfl
  rw [Desk.process_apply, Desk.perform_commit o commit, Action.bind_apply, Desk.observe_run,
    observation] at done
  rcases observed : (p.desk.cleared o p.entry).transactions.observe p.entry p.observation with
    f | ⟨t, finished⟩ <;> rw [observed] at done
  · have refused : p.accepted o = false := congrArg (fun x => x.1.isOk) done.symm
    have left : p.desk.cleared o p.entry = p.after o := congrArg Prod.snd done
    exact finds.posts_refused transactions refused (by rw [← left]) fun _ => settled
  · have accepted : p.accepted o = true := congrArg (fun x => x.1.isOk) done.symm
    have left : (p.desk.cleared o p.entry).withTransactions o.gates t finished = p.after o :=
      congrArg Prod.snd done
    have undecoded : p.decoded o = false := by simp [decoded, commit, EntryKind.isChange,
      EntryKind.isDataBearing]
    exact finds.posts_counted transactions observed
      (calls_of_counted accepted (by rw [commit]; rfl) (by simp [joins, commit]))
      (by rw [← left]; exact Desk.ledger_withTransactions delivering _ _ _)
      (by simp [sources, undecoded]) (fun _ _ => settled.rows) settled.tidy fun _ => settled

end Found

/-- Every entry keeps rows and summaries in order, unless it overtakes a row. -/
theorem posts (delivering : o.Delivering) (empty : p.desk.state.batch = []) (tidy : p.parts.Tidy)
    (apart : o.pairs = false → p.parts.Settled)
    (transactions : p.desk.transactions = .within (runs seen).getLast?)
    (inTime : ¬ p.Overtakes o) : p.Posts o seen := by
  obtain ⟨released, finds⟩ := finds delivering empty tidy
  by_cases lob : p.entry.kind = .lobWrite
  · exact finds.posts_lobWrite transactions delivering lob apart inTime
  by_cases commit : p.entry.kind = .commit
  · exact finds.posts_commit transactions delivering commit
  cases change : p.entry.kind.isChange with
  | true => exact finds.posts_row transactions delivering change lob
  | false =>
    have idle : p.entry.kind.isTransactional = false := by
      simp [EntryKind.isTransactional, change, commit]
    have left : (p.after o).ledger = (p.desk.cleared o p.entry).ledger := by
      rw [after, Desk.process_apply]
      exact Desk.keeps_ledger_perform delivering idle _ _ _
    exact finds.posts_idle (by rw [left]; rfl) rfl (by simp [sources, decoded, change])
      (by simp [calls, idle]) transactions finds.tidy fun _ => finds.settled lob

end Processed

end ChangeCapture
