import ChangeCapture.Proofs.Resuming

/-! What summaries count is what goes out. An entry is counted when it is observed, and its record goes
out at once, is held until later, or is part of another record, which was counted for itself. Where
every gate accepts, the records of a transaction that are out or held are at any time as many as its
summaries have counted, those that were handed out and the one at hand. -/
namespace ChangeCapture

open DomainRecord

/-- Whether a change is one of the data records of a transaction. -/
def ChangeHeader.carries (xid : String) (h : ChangeHeader) : Bool :=
  h.action.kind.isDataBearing && h.transactionId = some xid

/-- Whether an entry has a change number and a time that can be represented. -/
def Entry.isDated (e : Entry) : Bool :=
  match e.wide? .scn, e.wide? .timestamp with
  | .ok (some scn), .ok (some seconds) => scn ≠ 0 && (Timestamp.ofUnix? seconds).isSome
  | _, _ => false

namespace Sighting

/-- Whether an entry counts as a data record of a transaction. -/
def countsFor (xid : String) (x : Sighting) : Bool := x.isData && x.xid = xid

/-- All that lets a summary be handed out is known of the entry. -/
structure Dated (x : Sighting) : Prop where
  scn : ∃ scn, x.scn = some scn ∧ scn ≠ 0
  time : x.time.isSome
  record : x.observation.recordId ≠ .zero

theorem entry_of_read {e : Entry} {n : Observation} {x : Sighting} (read : read e n = .ok (some x)) :
    x.entry = e := by
  obtain ⟨named, _, read⟩ := bind_ok read
  cases named with
  | none => cases read
  | some _ =>
    obtain ⟨_, _, read⟩ := bind_ok read
    obtain ⟨_, _, read⟩ := bind_ok read
    cases read
    rfl

theorem dated_of_read {xid : String} {e : Entry} {n : Observation} {seen : Option Sighting}
    (read : read e n = .ok seen)
    (dated : e.text? .xid = .ok (some xid) → e.isDated ∧ n.recordId ≠ .zero) :
    ∀ x ∈ seen, x.xid = xid → x.Dated := by
  rintro x rfl rfl
  obtain ⟨named, text, read⟩ := bind_ok read
  cases named with
  | none => cases read
  | some name =>
    obtain ⟨scn, numbered, read⟩ := bind_ok read
    obtain ⟨seconds, timed, read⟩ := bind_ok read
    cases read
    obtain ⟨known, recorded⟩ := dated text
    rw [Entry.isDated, numbered, timed] at known
    rcases scn with _ | scn
    · cases known
    rcases seconds with _ | seconds
    · cases known
    obtain ⟨set, time⟩ := Bool.and_eq_true_iff.mp known
    refine ⟨⟨scn, rfl, of_decide_eq_true set⟩, ?_, recorded⟩
    show ((some seconds).bind Timestamp.ofUnix?).isSome
    rwa [Option.bind_some]

end Sighting

theorem ChangeHeader.carries_of_read {e : Entry} {id : RecordId} {tableId : Nat}
    {table : Option Table} {h : ChangeHeader} {n : Observation} {seen : Option Sighting}
    (ok : ofEntry e id tableId table = .ok h) (change : e.kind.isChange)
    (read : Sighting.read e n = .ok seen) (xid : String) :
    h.carries xid = seen.any (Sighting.countsFor xid) := by
  have action := (of_ofEntry ok).2
  obtain ⟨named, text, ok⟩ := bind_ok ok
  have id : h.transactionId = named := by
    obtain ⟨_, _, ok⟩ := bind_ok ok
    obtain ⟨_, _, ok⟩ := bind_ok ok
    obtain ⟨_, _, ok⟩ := bind_ok ok
    obtain ⟨_, _, ok⟩ := bind_ok ok
    obtain ⟨_, _, ok⟩ := bind_ok ok
    cases ok
    rfl
  rw [carries, action, ChangeAction.kind_ofKind change, id]
  obtain ⟨_, same, read⟩ := bind_ok read
  cases text.symm.trans same
  cases named with
  | none =>
    cases read
    simp
  | some x =>
    obtain ⟨_, _, read⟩ := bind_ok read
    obtain ⟨_, _, read⟩ := bind_ok read
    cases read
    simp [Sighting.countsFor, Sighting.isData]

namespace DomainRecord

def summary? (r : DomainRecord) : Option TransactionSummary :=
  match r.data with
  | .transaction s => some s
  | _ => none

/-- The data records of a transaction. -/
def carried (xid : String) (records : List DomainRecord) : Nat :=
  (changes records).countP (fun c => c.header.carries xid)

/-- The records that the summaries of a transaction add up to. -/
def summedUp (xid : String) (records : List DomainRecord) : Nat :=
  (((records.filterMap summary?).filter (fun s => s.id = xid)).map
    TransactionSummary.recordCount).sum

@[simp] theorem carried_append (xid : String) (records more : List DomainRecord) :
    carried xid (records ++ more) = carried xid records + carried xid more := by
  simp [carried, List.countP_append]

@[simp] theorem summedUp_append (xid : String) (records more : List DomainRecord) :
    summedUp xid (records ++ more) = summedUp xid records + summedUp xid more := by
  simp [summedUp]

end DomainRecord

namespace TransactionSummary

/-- Whether nothing but records may be missing for a summary to be handed out. -/
def isDated (s : TransactionSummary) : Bool := isValid { s with recordCount := 1 }

theorem isValid_of_isDated {s : TransactionSummary} (dated : s.isDated) :
    s.isValid = decide (0 < s.recordCount) := by
  simp [isDated, isValid] at dated
  simp [isValid, dated]

theorem lowered_ne [DecidableEq α] [LT α] [DecidableLT α] {unset start value : α}
    (set : value ≠ unset) : lowered unset start value ≠ unset := by
  unfold lowered
  split
  · exact set
  next kept => exact fun none_ => kept (.inl none_)

theorem raised_ne [LT α] [DecidableLT α] {unset stop value : α} (set : value ≠ unset)
    (above : unset < value) : raised stop value ≠ unset := by
  unfold raised
  split
  · exact set
  next kept => exact fun none_ => kept (none_ ▸ above)

theorem isZero_eq_false {r : RecordId} (set : r ≠ .zero) : r.isZero = false := by
  obtain ⟨file, entry⟩ := r
  simp only [RecordId.zero, ne_eq, RecordId.mk.injEq] at set
  refine decide_eq_false fun none_ => ?_
  dsimp only [RecordId.word] at none_
  omega

theorem isDated_foldInto {s : TransactionSummary} {x : Sighting} (named : s.id ≠ "")
    (dated : x.Dated) : (Sighting.foldInto s x).isDated := by
  obtain ⟨⟨scn, numbered, set⟩, timed, recorded⟩ := dated
  obtain ⟨time, timed⟩ := Option.isSome_iff_exists.mp timed
  have above := (RecordId.zero_or_above _).resolve_left recorded
  have start : (lowered .zero s.startRecordId x.observation.recordId).isZero = false :=
    isZero_eq_false (lowered_ne recorded)
  have stop : (raised s.endRecordId x.observation.recordId).isZero = false :=
    isZero_eq_false (raised_ne recorded above)
  have first : lowered 0 s.startScn scn ≠ 0 := lowered_ne set
  have last : raised s.endScn scn ≠ 0 := raised_ne set (Nat.pos_of_ne_zero set)
  have kept : x.scn.filter (· ≠ 0) = some scn := by simp [numbered, Option.filter, set]
  rw [isDated, Sighting.foldInto_eq, kept, timed]
  simp [isValid, named, start, stop, first, last]

theorem recordCount_foldInto (s : TransactionSummary) (x : Sighting) :
    (Sighting.foldInto s x).recordCount = s.recordCount + if x.isData then 1 else 0 := by
  rw [Sighting.foldInto_eq]
  cases x.isData <;> rfl

/-- What a summary adds to the tally of a transaction once it is handed out. -/
def countFor (xid : String) (s : TransactionSummary) : Nat := if s.id = xid then s.recordCount else 0

theorem summedUp_records (xid : String) (finished : Option TransactionSummary) :
    summedUp xid (finished.toList.map record) = finished.elim 0 (countFor xid) := by
  cases finished with
  | none => rfl
  | some s => by_cases own : s.id = xid <;> simp [summedUp, summary?, record, countFor, own]

end TransactionSummary

namespace Transactions

open TransactionSummary

/-- What the transaction has been counted for and has not been handed out. -/
def counted (xid : String) (t : Transactions) : Nat := (t.summaries.get? xid).elim 0 recordCount

/-- Summaries are kept under their names, only that of the transaction at hand is in progress, and
that of the transaction in question can be handed out. -/
structure Ready (xid : String) (t : Transactions) : Prop where
  alone : t.Alone
  named : ∀ key s, t.summaries.get? key = some s → s.id = key
  dated : ∀ s, t.summaries.get? xid = some s → s.isDated

theorem Ready.counted_finish {xid : String} {t : Transactions} (ready : t.Ready xid) (key : String) :
    (t.finish key).1.counted xid + (t.finish key).2.elim 0 (countFor xid) = t.counted xid := by
  simp only [finish, counted, Registry.get?_erase]
  by_cases own : xid = key
  · subst own
    rw [if_pos rfl]
    cases found : t.summaries.get? xid with
    | none => rfl
    | some s =>
      rw [Option.filter_some, isValid_of_isDated (ready.dated s found)]
      by_cases some_ : 0 < s.recordCount
      · simp [some_, countFor, ready.named xid s found]
      · simp [some_]
        omega
  · rw [if_neg own]
    have other : ((t.summaries.get? key).filter isValid).elim 0 (countFor xid) = 0 := by
      rcases handed : (t.summaries.get? key).filter isValid with _ | s
      · rfl
      · obtain ⟨found, -⟩ := Option.filter_eq_some_iff.mp handed
        simp [countFor, ready.named key s found, Ne.symm own]
    rw [other]
    rfl

theorem Ready.enter {xid x : String} {t t' : Transactions} {finished : Option TransactionSummary}
    (ready : t.Ready xid) (entered : t.enter x = (t', finished)) :
    t'.current = some x ∧ t'.Ready xid ∧
      t'.counted xid + finished.elim 0 (countFor xid) = t.counted xid := by
  obtain ⟨current, alone, -⟩ := enter_waits ready.alone entered
  refine ⟨current, ?_⟩
  unfold Transactions.enter at entered
  split at entered
  · cases entered
    exact ⟨ready, rfl⟩
  dsimp only at entered
  split at entered
  next previous _ =>
    cases entered
    have kept : ∀ {key s}, (t.summaries.erase previous).get? key = some s →
        t.summaries.get? key = some s := by
      intro key s found
      rw [Registry.get?_erase] at found
      split at found
      · cases found
      · exact found
    exact ⟨⟨alone, fun key s found => ready.named key s (kept found),
      fun s found => ready.dated s (kept found)⟩, ready.counted_finish previous⟩
  · cases entered
    exact ⟨⟨alone, ready.named, ready.dated⟩, rfl⟩

theorem Ready.add {xid : String} {t : Transactions} {x : Sighting} (ready : t.Ready xid)
    (current : t.current = some x.xid) (set : xid ≠ "") (dated : x.xid = xid → x.Dated) :
    let t' := t.add x.xid (Sighting.foldInto · x)
    t'.Ready xid ∧ t'.counted xid = t.counted xid + if x.countsFor xid then 1 else 0 := by
  intro t'
  have before : ((t.summaries.get? x.xid).getD (.new x.xid)).id = x.xid := by
    cases found : t.summaries.get? x.xid with
    | none => rfl
    | some s => exact ready.named _ s found
  have found (key : String) : t'.summaries.get? key = if key = x.xid then
      some (Sighting.foldInto ((t.summaries.get? x.xid).getD (.new x.xid)) x)
      else t.summaries.get? key := Registry.get?_insert ..
  refine ⟨⟨(add_waits current ready.alone x.entry x.observation x.scn x.time).1, ?_, ?_⟩, ?_⟩
  · intro key s known
    rw [found] at known
    split at known
    next own =>
      cases known
      rw [Sighting.id_foldInto, before, own]
    · exact ready.named key s known
  · intro s known
    rw [found] at known
    split at known
    next own =>
      cases known
      exact isDated_foldInto (by rwa [before, ← own]) (dated own.symm)
    · exact ready.dated s known
  · rw [counted, found]
    by_cases own : xid = x.xid
    · subst own
      rw [if_pos rfl, Option.elim_some, recordCount_foldInto, counted]
      simp only [Sighting.countsFor, decide_true, Bool.and_true]
      cases t.summaries.get? x.xid <;> rfl
    · simp [counted, Sighting.countsFor, own, Ne.symm own]

/-- What an entry does to what has been counted. -/
theorem Ready.sight {xid : String} {t : Transactions} {x : Sighting} (ready : t.Ready xid)
    (set : xid ≠ "") (dated : x.xid = xid → x.Dated) :
    (t.sight x).1.Ready xid ∧ (t.sight x).1.counted xid + (t.sight x).2.elim 0 (countFor xid) =
      t.counted xid + if x.countsFor xid then 1 else 0 := by
  rcases entered : t.enter x.xid with ⟨t', finished⟩
  obtain ⟨current, readyThen, balance⟩ := ready.enter entered
  obtain ⟨readyAfter, more⟩ := readyThen.add current set dated
  simp only [Transactions.sight, entered]
  exact ⟨readyAfter, by omega⟩

theorem Ready.observe {xid : String} {t t' : Transactions} {e : Entry} {n : Observation}
    {seen : Option Sighting} {finished : Option TransactionSummary} (ready : t.Ready xid)
    (set : xid ≠ "") (read : Sighting.read e n = .ok seen)
    (dated : ∀ x ∈ seen, x.xid = xid → x.Dated) (observed : t.observe e n = .ok (t', finished)) :
    t'.Ready xid ∧ t'.counted xid + finished.elim 0 (countFor xid) =
      t.counted xid + if seen.any (Sighting.countsFor xid) then 1 else 0 := by
  rw [observe_eq, read] at observed
  cases seen with
  | none =>
    cases observed
    exact ⟨ready, rfl⟩
  | some x =>
    cases observed
    exact ready.sight set (dated x rfl)

theorem Ready.flush {xid : String} {t : Transactions} (ready : t.Ready xid) :
    t.flush.2.elim 0 (countFor xid) = t.counted xid := by
  unfold Transactions.flush
  split
  next x current =>
    have balance := ready.counted_finish x
    have none_ : (t.finish x).1.counted xid = 0 := by
      simp only [counted, Transactions.finish, Registry.get?_erase]
      split
      · rfl
      next apart => rw [ready.alone xid (by simpa [current] using Ne.symm apart)]; rfl
    rw [none_, Nat.zero_add] at balance
    exact balance
  next none_ =>
    rw [counted, ready.alone xid (by simp [none_])]
    rfl

end Transactions

namespace Parts

/-- The data records of a transaction that are held. -/
def carried (xid : String) (p : Parts) : Nat := p.rows.countP (·.carries xid)

theorem carried_release (xid : String) (p : Parts) :
    DomainRecord.carried xid (p.release.2.map HeldRecord.released) = p.carried xid := by
  have rows : p.release.2.map (fun held => held.record.header) = p.rows := by
    rw [release, rows, headers, List.filter_map]
    rw [Registry.values_filter p (fun held => held.record.header.action.isRowChange), List.map_map]
    rfl
  have out (held : List HeldRecord) : changes (held.map HeldRecord.released) =
      held.map (fun held => .row held.record) := by
    induction held with
    | nil => rfl
    | cons h held ih => exact congrArg (_ :: ·) ih
  rw [DomainRecord.carried, out, carried, ← rows, List.countP_map, List.countP_map]
  rfl

theorem summedUp_release (xid : String) (p : Parts) :
    summedUp xid (p.release.2.map HeldRecord.released) = 0 := by
  have none_ (held : List HeldRecord) :
      (held.map HeldRecord.released).filterMap summary? = [] := by
    rw [List.filterMap_map]
    exact List.filterMap_eq_nil_iff.mpr fun _ _ => rfl
  rw [summedUp, none_]
  rfl

theorem rows_release (p : Parts) : p.release.1.rows = [] := by
  refine List.filter_eq_nil_iff.mpr fun h member => ?_
  rw [release, headers] at member
  rw [Registry.values_filter p (fun held => !held.record.header.action.isRowChange)] at member
  obtain ⟨held, kept, rfl⟩ := List.mem_map.mp member
  simpa using (List.mem_filter.mp kept).2

theorem header_of_emitted {p p' : Parts} {table : Option Table} {offset : StreamOffset}
    {r r' : ChangeRecord} (ok : p.offer table offset r = (p', .ok (.emitted r'))) :
    r'.header = r.header := by
  rw [offer] at ok
  split at ok
  · rw [offerLobWrite] at ok
    split at ok
    · cases ok
    · split at ok <;> cases ok
  split at ok
  · rw [offerRowChange] at ok
    split at ok
    · split at ok
      next adopted =>
        cases ok
        exact (congrArg (fun x => x.1.header) adopted).symm
      · cases ok
    · split at ok <;> cases ok
      rfl
  · cases ok
    rfl

end Parts

theorem Offers.header {o : StreamOptions} {p parts : Parts} {c c' : Change}
    (offers : Offers o p c parts (.ok (.emitted c'))) : c'.header = c.header := by
  generalize result : (Except.ok (Offered.emitted c') : Except Failure _) = x at offers
  cases offers with
  | apart =>
    cases result
    rfl
  | @row r _ _ _ x _ same offered =>
    subst same
    rcases x with f | r' | _ | _ <;> cases result
    exact Parts.header_of_emitted offered

/-- The row that waits after a change was offered. -/
def Offered.waiting (c : Change) : Offered Change → List ChangeHeader
  | held => [c.header]
  | emitted _ | fragment => []

theorem Offers.leaves {o : StreamOptions} {p parts : Parts} {c : Change} {x : Offered Change}
    (offers : Offers o p c parts (.ok x)) (tidy : p.Tidy)
    (free : c.header.action = .lobWrite ∨ p.Settled) :
    parts.Tidy ∧ parts.rows = p.rows ++ x.waiting c := by
  by_cases lob : c.header.action = .lobWrite
  · have left := offers.lobWrite_leaves lob
    cases x with
    | fragment => exact ⟨left.2.tidy tidy, by rw [left.2.rows]; exact (List.append_nil _).symm⟩
    | held => exact left.elim
    | emitted _ => exact ⟨left.2.1 ▸ tidy, by rw [left.2.1]; exact (List.append_nil _).symm⟩
  · have settled := free.resolve_left lob
    have left := offers.row_leaves lob settled
    rw [settled.rows, List.nil_append]
    cases x with
    | fragment => exact left.elim
    | held => exact ⟨left.2.2, left.2.1⟩
    | emitted _ => exact ⟨left.1.tidy, left.1.rows⟩

namespace Written

/-- What has gone out or is held of a transaction, beyond what it has been counted for. -/
def surplus (xid : String) (w : Written) : Int :=
  (carried xid w.batch + w.parts.carried xid : Nat) -
    (summedUp xid w.batch + w.transactions.counted xid : Nat)

/-- What an entry leaves, where what it counts is what it adds. -/
structure Tallies (xid : String) (w w' : Written) : Prop where
  level : w'.surplus xid = w.surplus xid
  tidy : w'.parts.Tidy
  ready : w'.transactions.Ready xid

end Written

/-- Every entry is decoded, and every record is kept and delivered. -/
def StreamOptions.Accepting (o : StreamOptions) : Prop := ∀ gate input, o.gates gate input = true

theorem StreamOptions.Accepting.delivering {o : StreamOptions} (accepting : o.Accepting) :
    o.Delivering := fun _ => ⟨accepting _ _, accepting _ _⟩

namespace Desk

open ChangeCapture.Action

variable {o : StreamOptions} {xid : String}

theorem surplus_release (delivering : o.Delivering) (d : Desk) :
    (d.release o.gates).written.surplus xid = d.written.surplus xid := by
  have held : Parts.carried xid d.state.cache.parts.release.1 = 0 := by
    rw [Parts.carried, Parts.rows_release]
    rfl
  rw [written_release delivering]
  simp only [Written.surplus, carried_append, summedUp_append, Parts.carried_release,
    Parts.summedUp_release, held]
  rfl

theorem surplus_emit (delivering : o.Delivering) (d : Desk) (offset : StreamOffset) (c : Change) :
    (d.emit o.gates ⟨offset, .change c⟩).written.surplus xid =
      d.written.surplus xid + if c.header.carries xid then 1 else 0 := by
  have one : carried xid [⟨offset, .change c⟩] = if c.header.carries xid then 1 else 0 :=
    List.countP_singleton
  rw [written_emit delivering]
  simp only [Written.surplus, carried_append, summedUp_append, one, written]
  rw [show summedUp xid [⟨offset, .change c⟩] = 0 from rfl]
  split <;> omega

theorem observe_tallies (delivering : o.Delivering) {e : Entry} {n : Observation}
    {seen : Option Sighting} {d d' : Desk} (ready : d.transactions.Ready xid) (set : xid ≠ "")
    (read : Sighting.read e n = .ok seen) (dated : ∀ x ∈ seen, x.xid = xid → x.Dated)
    (ok : observe o e n d = (.ok (), d')) :
    d'.state.cache.parts = d.state.cache.parts ∧ d'.transactions.Ready xid ∧
      d'.written.surplus xid + (if seen.any (Sighting.countsFor xid) then 1 else 0) =
        d.written.surplus xid := by
  rw [observe_run] at ok
  rcases observed : d.transactions.observe e n with f | ⟨t, finished⟩ <;> rw [observed] at ok <;>
    cases ok
  obtain ⟨readyAfter, balance⟩ := ready.observe set read dated observed
  have after := written_withTransactions delivering d t finished
  have transactions : (d.withTransactions o.gates t finished).transactions = t :=
    congrArg Written.transactions after
  refine ⟨congrArg Written.parts after, by rwa [transactions], ?_⟩
  rw [after]
  have none_ : carried xid (finished.toList.map TransactionSummary.record) = 0 := by
    cases finished <;> rfl
  simp only [Written.surplus, carried_append, summedUp_append, none_,
    TransactionSummary.summedUp_records, written]
  split at balance <;> rename_i counts <;> simp only [counts] <;> simp <;> omega

/-- A change that was offered goes out as it is counted, waits as it is counted, or is part of
another one and not counted. -/
theorem offered_tallies (delivering : o.Delivering) {e : Entry} {id : RecordId} {view : ChangeView}
    {c : Change} (given : c.OfEntry e id view) (change : e.kind.isChange) {n : Observation}
    {d m d' : Desk} {parts : Parts} {x : Offered Change}
    (left : m.written = { d.written with parts })
    (tidy : d.state.cache.parts.Tidy) (free : e.kind = .lobWrite ∨ d.state.cache.parts.Settled)
    (ready : d.transactions.Ready xid) (set : xid ≠ "")
    (dated : e.text? .xid = .ok (some xid) → e.isDated ∧ n.recordId ≠ .zero)
    (ok : (match x with
      | .fragment => pure ()
      | .held => observe o e n
      | .emitted change => do
        observe o e n
        modify (fun d => d.emit o.gates ⟨n.offset, .change change⟩) : Action Desk Unit) m =
          (.ok (), d'))
    (offers : Offers o d.state.cache.parts c parts (.ok x)) :
    d.written.Tallies xid d'.written := by
  obtain ⟨_, _, header⟩ := given.header
  obtain ⟨seen, read⟩ := ChangeHeader.sighted header n
  have counts := ChangeHeader.carries_of_read header change read xid
  have dated := Sighting.dated_of_read read dated
  obtain ⟨tidyAfter, rows⟩ := offers.leaves tidy (free.imp_left given.lobWrite_iff.mpr)
  have held : m.state.cache.parts = parts := congrArg Written.parts left
  have ready : m.transactions.Ready xid := by
    rwa [show m.transactions = d.transactions from congrArg Written.transactions left]
  have surplus : m.written.surplus xid =
      d.written.surplus xid + ((x.waiting c).countP (·.carries xid) : Nat) := by
    rw [left]
    simp only [Written.surplus, written, Parts.carried, rows, List.countP_append]
    omega
  cases x with
  | fragment =>
    cases ok
    exact ⟨by simpa [Offered.waiting] using surplus, by rwa [written, held], ready⟩
  | held =>
    obtain ⟨kept, readyAfter, level⟩ := observe_tallies delivering ready set read dated ok
    refine ⟨?_, by rwa [written, kept, held], readyAfter⟩
    rw [← counts] at level
    simp only [Offered.waiting, List.countP_singleton] at surplus
    split at level <;> simp_all
  | emitted c' =>
    obtain ⟨_, k, observed, ok⟩ := Action.bind_ok ok
    obtain ⟨kept, readyAfter, level⟩ := observe_tallies delivering ready set read dated observed
    cases ok
    have after := written_emit delivering k ⟨n.offset, .change c'⟩
    refine ⟨?_, ?_, ?_⟩
    · rw [surplus_emit delivering, offers.header, counts, level, surplus]
      exact Int.add_zero _
    · rw [after]
      exact kept ▸ held ▸ tidyAfter
    · rw [after]
      exact readyAfter

/-- A change entry where the parse gate accepts everything. -/
theorem change_tallies (accepting : o.Accepting) {e : Entry} (change : e.kind.isChange)
    {id : RecordId} {offset : StreamOffset} {d d' : Desk} (tidy : d.state.cache.parts.Tidy)
    (free : e.kind = .lobWrite ∨ d.state.cache.parts.Settled) (ready : d.transactions.Ready xid)
    (set : xid ≠ "") (dated : e.text? .xid = .ok (some xid) → e.isDated ∧ id ≠ .zero)
    (ok : Desk.change o e id offset d = (.ok (), d')) : d.written.Tallies xid d'.written := by
  have delivering := accepting.delivering
  obtain ⟨_, _, got, ok⟩ := Action.bind_ok ok
  cases got
  dsimp only at ok
  split at ok
  · cases ok
  obtain ⟨schema, d, known, ok⟩ := Action.bind_ok ok
  obtain ⟨-, rfl⟩ := ofExcept_run known
  rw [bind_apply, parses_apply] at ok
  dsimp only at ok
  rw [accepting, if_pos rfl] at ok
  have asked : (d.asked o.gates .parse ⟨e.kind, schema, offset⟩).written = d.written := rfl
  obtain ⟨c, m, decoded, ok⟩ := Action.bind_ok ok
  have given := assembled decoded
  have taught : m.written = d.written := ((calm_written.assemble e id).eq decoded).trans asked
  have held : m.state.cache.parts = d.state.cache.parts := congrArg Written.parts taught
  obtain ⟨x, k, offered, ok⟩ := Action.bind_ok ok
  obtain ⟨parts, offers, left⟩ := offer_run offset given.view m
  rw [offered, held] at offers
  rw [offered] at left
  refine offered_tallies delivering given change (n := ⟨d.state.file.uid, id, offset, schema⟩)
    ?_ tidy free ready set dated ok offers
  rw [show k = _ from left, ← taught]
  rfl

theorem quiet_surplus (delivering : o.Delivering) (xid : String) :
    Quiet o (fun d => (d.books, d.written.surplus xid)) where
  say _ _ := rfl
  catalog _ _ := rfl
  features _ _ := rfl
  included _ _ := rfl
  document d offset document := by
    have after := written_emit delivering d ⟨offset, .metadata document⟩
    have books : (d.emit o.gates ⟨offset, .metadata document⟩).books = d.books :=
      congrArg (fun w => (w.parts, w.transactions)) after
    rw [books, after]
    simp only [Written.surplus, carried_append, summedUp_append]
    rfl

theorem read_of_commit {e : Entry} (commit : e.kind = .commit) {n : Observation} {d d' : Desk}
    (ok : observe o e n d = (.ok (), d')) :
    ∃ seen, Sighting.read e n = .ok seen ∧ seen.any (Sighting.countsFor xid) = false := by
  rw [observe_run, Transactions.observe_eq] at ok
  rcases read : Sighting.read e n with f | seen
  · rw [read] at ok
    cases ok
  refine ⟨seen, rfl, ?_⟩
  cases seen with
  | none => rfl
  | some x =>
    have entry : x.entry = e := Sighting.entry_of_read read
    simp [Sighting.countsFor, Sighting.isData, entry, commit, EntryKind.isDataBearing]

theorem perform_tallies (accepting : o.Accepting) {e : Entry} {id : RecordId}
    {offset : StreamOffset} {d d' : Desk} {opened : Option Included}
    (tidy : d.state.cache.parts.Tidy)
    (free : e.kind = .lobWrite ∨ d.state.cache.parts.Settled) (ready : d.transactions.Ready xid)
    (set : xid ≠ "")
    (dated : e.kind.isTransactional → e.text? .xid = .ok (some xid) → e.isDated ∧ id ≠ .zero)
    (done : perform o e id offset d = (.ok opened, d')) :
    d.written.Tallies xid d'.written := by
  have delivering := accepting.delivering
  cases transactional : e.kind.isTransactional with
  | false =>
    have kept := ((quiet_surplus delivering xid).perform (fun _ _ => rfl) transactional id
      offset).eq done
    obtain ⟨books, level⟩ := Prod.mk.inj kept
    obtain ⟨parts, transactions⟩ := Prod.mk.inj books
    exact ⟨level, by rwa [written, parts], by rwa [written, transactions]⟩
  | true =>
    have dated := dated transactional
    cases change : e.kind.isChange with
    | true =>
      rw [perform_change o change] at done
      obtain ⟨_, _, ok, rest⟩ := Action.bind_ok done
      cases rest
      exact change_tallies accepting change tidy free ready set dated ok
    | false =>
      have commit : e.kind = .commit := by simpa [EntryKind.isTransactional, change] using transactional
      rw [perform_commit o commit, Action.bind_apply] at done
      let n : Observation := ⟨d.state.file.uid, id, offset, none⟩
      rcases ok : observe o e n d with ⟨f | _, k⟩ <;> rw [ok] at done <;> cases done
      obtain ⟨seen, read, counts⟩ := read_of_commit commit ok
      obtain ⟨kept, readyAfter, level⟩ := observe_tallies delivering ready set read
        (Sighting.dated_of_read read dated) ok
      rw [counts] at level
      exact ⟨by simpa using level, by rwa [written, kept], readyAfter⟩

/-- What an entry does from the first. -/
theorem process_tallies (accepting : o.Accepting) {e : Entry} {d d' : Desk}
    {opened : Option Included} (tidy : d.state.cache.parts.Tidy) (ready : d.transactions.Ready xid)
    (set : xid ≠ "")
    (dated : e.kind.isTransactional → e.text? .xid = .ok (some xid) →
      e.isDated ∧ d.nextId ≠ .zero) (done : process o e d = (.ok opened, d')) :
    d.written.Tallies xid d'.written := by
  have delivering := accepting.delivering
  rw [process_apply] at done
  by_cases lob : e.kind = .lobWrite
  · have same : (d.cleared o e).written = d.written := by
      rw [cleared, if_neg (not_not_intro lob)]
      rfl
    rw [← same]
    simp only [written, Written.mk.injEq] at same
    exact perform_tallies accepting (by rwa [same.2.1]) (.inl lob) (by rwa [same.2.2]) set dated
      done
  · have released : (d.cleared o e).written = (release o.gates
        d.counted).written := by
      rw [cleared, if_pos lob]
    have level : (d.cleared o e).written.surplus xid = d.written.surplus xid := by
      rw [released, surplus_release delivering]
      rfl
    rw [written_release delivering] at released
    simp only [written, Written.mk.injEq] at released
    have settled : (d.cleared o e).state.cache.parts.Settled := by
      rw [released.2.1]
      exact Parts.release_settled tidy
    have tallies := perform_tallies accepting settled.tidy (.inr settled)
      (show Transactions.Ready xid (d.cleared o e).transactions from released.2.2 ▸ ready) set dated
      done
    exact ⟨tallies.level.trans level, tallies.tidy, tallies.ready⟩

end Desk

namespace Session

variable {o : StreamOptions} {depth : Nat} {xid : String} {s t : Session} {ps : List Processed}

theorem Step.accepted (step : Step o depth s ps t) : ∀ p ∈ ps, ∃ opened, p.result o = .ok opened := by
  induction step with
  | header | footer | close | handOn | resume => exact nofun
  | entry _ _ done => exact fun p member => List.mem_singleton.mp member ▸ ⟨_, done⟩
  | included _ _ _ ih => exact ih

/-- What has gone out of a transaction along a path, and what is held then, is what it has been
counted for. -/
structure Tallied (xid : String) (out : List DomainRecord) (s : Session) : Prop where
  level : Written.surplus xid ⟨out, s.books.1, s.books.2⟩ = 0
  tidy : s.books.1.Tidy
  ready : s.books.2.Ready xid

theorem surplus_append (xid : String) (records more : List DomainRecord) (parts : Parts)
    (t : Transactions) : Written.surplus xid ⟨records ++ more, parts, t⟩ =
      Written.surplus xid ⟨records, ∅, .empty⟩ + Written.surplus xid ⟨more, parts, t⟩ := by
  have none_ : Parts.carried xid ∅ = 0 := rfl
  have nothing : Transactions.counted xid .empty = 0 := rfl
  simp only [Written.surplus, carried_append, summedUp_append, none_, nothing]
  omega

theorem Between.tallied {out : List DomainRecord} (accepting : o.Accepting)
    (between : Between o s t ps) (accepted : ∀ p ∈ ps, ∃ opened, p.result o = .ok opened)
    (tallied : Tallied xid out s) (set : xid ≠ "")
    (dated : ∀ p ∈ ps, p.entry.kind.isTransactional → p.entry.text? .xid = .ok (some xid) →
      p.entry.isDated ∧ p.desk.nextId ≠ .zero) :
    Tallied xid (out ++ Processed.allRecords o ps) t := by
  obtain ⟨level, tidy, ready⟩ := tallied
  cases between with
  | nothing same =>
    rw [Processed.allRecords_nil, List.append_nil]
    exact ⟨same ▸ level, same ▸ tidy, same ▸ ready⟩
  | @entry p found empty left =>
    have member := List.mem_singleton_self p
    obtain ⟨opened, done⟩ := accepted p member
    have before := pending_of_books found empty
    rw [← found] at tidy ready
    have processed : Desk.process o p.entry p.desk = (.ok opened, p.after o) := Prod.ext done rfl
    have tallies := Desk.process_tallies accepting tidy ready set (dated p member) processed
    have same := tallies.level
    rw [before] at same
    rw [← List.append_nil out, surplus_append] at level
    rw [Processed.allRecords_singleton]
    refine ⟨?_, left ▸ tallies.tidy, left ▸ tallies.ready⟩
    rw [surplus_append, left, ← level]
    exact congrArg _ same

theorem Path.tallied {out : List DomainRecord} (accepting : o.Accepting)
    (path : Path o depth s ps t) (nested : s.WellNested) (tallied : Tallied xid out s)
    (set : xid ≠ "") (dated : ∀ p ∈ ps, p.entry.kind.isTransactional →
      p.entry.text? .xid = .ok (some xid) → p.entry.isDated ∧ p.desk.nextId ≠ .zero) :
    Tallied xid (out ++ Processed.allRecords o ps) t := by
  induction path generalizing out with
  | nil => rwa [Processed.allRecords_nil, List.append_nil]
  | cons step _ ih =>
    have next := (step.between nested).tallied accepting step.accepted tallied set
      fun p member => dated p (List.mem_append_left _ member)
    rw [Processed.allRecords_append, ← List.append_assoc]
    exact ih (step.wellNested nested) next fun p member => dated p (List.mem_append_right _ member)

end Session

namespace Desk

end Desk

namespace LogStream

variable {s : LogStream} {j : Journal} {o : StreamOptions} {file : LogFile} {source : Source}

end LogStream

end ChangeCapture
