import ChangeCapture.Proofs.Precedence

/-! Where records are reported. Among the records that an entry lets go of, and that it leaves to be
let go of later, at most one change or document and at most one summary is reported at the entry
itself; all others have waited for it, and leave in the order in which they came. -/
namespace ChangeCapture

open DomainRecord

namespace Registry

variable {κ : Type u} {α : Type v} [DecidableEq κ]

theorem split_place (key : κ) (a : α) (l : List (κ × α)) : ∃ before after,
    l.map Prod.snd = before ++ (find key l).toList ++ after ∧
      (place key a l).map Prod.snd = before ++ [a] ++ after := by
  induction l with
  | nil => exact ⟨[], [], rfl, rfl⟩
  | cons e rest ih =>
    obtain ⟨k, b⟩ := e
    by_cases here : k = key
    · refine ⟨[], rest.map Prod.snd, ?_, ?_⟩
      · simp [find, here]
      · simp [place, here]
    · obtain ⟨before, after, split, placed⟩ := ih
      refine ⟨b :: before, after, ?_, ?_⟩
      · simp [find, here, split]
      · simp [place, here, placed]

end Registry

/-- Where a row that is held is going to be reported. -/
def HeldRecord.wait? (held : HeldRecord) : Option StreamOffset :=
  if held.record.header.action.isRowChange then some held.offset else none

namespace Parts

/-- Where the rows that are held are going to be reported. -/
def waits (p : Parts) : List StreamOffset := p.values.filterMap HeldRecord.wait?

theorem waits_insert (p : Parts) (key : PartKey) (held : HeldRecord) : ∃ before after,
    p.waits = before ++ ((p.get? key).bind HeldRecord.wait?).toList ++ after ∧
      waits (p.insert key held) = before ++ held.wait?.toList ++ after := by
  obtain ⟨before, after, split, placed⟩ := Registry.split_place key held p.entries
  have apart (x : Option HeldRecord) :
      x.toList.filterMap HeldRecord.wait? = (x.bind HeldRecord.wait?).toList := by
    rcases x with _ | x
    · rfl
    · cases wait : x.wait? <;> simp [wait]
  refine ⟨before.filterMap HeldRecord.wait?, after.filterMap HeldRecord.wait?, ?_, ?_⟩
  · rw [waits, Registry.values, split, List.filterMap_append, List.filterMap_append, apart]
    rfl
  · rw [waits, Registry.values, Registry.insert, placed, List.filterMap_append,
      List.filterMap_append]
    exact congrArg (_ ++ · ++ _) (apart (some held))

/-- What waits no longer or shorter than what is held under its key makes no difference. -/
theorem waits_insert_alike {p : Parts} {key : PartKey} {held : HeldRecord}
    (alike : held.wait? = (p.get? key).bind HeldRecord.wait?) :
    waits (p.insert key held) = p.waits := by
  obtain ⟨before, after, split, placed⟩ := p.waits_insert key held
  rw [split, placed, alike]

theorem waits_insert_first {p : Parts} (none_ : p.waits = []) (key : PartKey) (held : HeldRecord) :
    waits (p.insert key held) = held.wait?.toList := by
  obtain ⟨before, after, split, placed⟩ := p.waits_insert key held
  rw [none_] at split
  simp only [List.nil_eq, List.append_eq_nil_iff] at split
  simp [placed, split]

theorem waits_erase {p : Parts} (none_ : p.waits = []) (key : PartKey) :
    waits (p.erase key) = [] := by
  have fewer : (Registry.erase p key).values.Sublist (Registry.values p) :=
    List.filter_sublist.map _
  have nothing := fewer.filterMap HeldRecord.wait?
  rw [show p.values.filterMap _ = [] from none_] at nothing
  exact List.sublist_nil.mp nothing

@[simp] theorem waits_release (p : Parts) : p.release.1.waits = [] := by
  refine List.filterMap_eq_nil_iff.mpr fun held member => ?_
  have stays : p.release.1.values =
      p.values.filter (fun held => !held.record.header.action.isRowChange) :=
    Registry.values_filter p _
  rw [stays, List.mem_filter] at member
  simpa [HeldRecord.wait?] using member.2

theorem offset_release (p : Parts) : p.release.2.map HeldRecord.offset = p.waits := by
  have goes : (p.filter (fun _ held => held.record.header.action.isRowChange)).values =
      p.values.filter (fun held => held.record.header.action.isRowChange) :=
    Registry.values_filter p _
  simp only [release, goes, List.map_map, waits]
  induction p.values with
  | nil => rfl
  | cons held rest ih =>
    cases row : held.record.header.action.isRowChange <;>
      simp_all [HeldRecord.wait?]

end Parts

/-- What an offer at some offset does to where rows that are held are going to be reported. -/
def Seats (offset : StreamOffset) (before after : List StreamOffset) :
    Except Failure (Offered α) → Prop
  | .error _ => after = before
  | .ok .fragment => after = before
  | .ok .held => before = [] ∧ after = [offset]
  | .ok (.emitted _) => before = [] ∧ after = []

namespace Parts

theorem seats_lobWrite {p p' : Parts} {offset : StreamOffset} {r : ChangeRecord}
    {x : Except Failure (Offered ChangeRecord)} (lob : r.isLobWrite)
    (offered : p.offerLobWrite offset r = (p', x)) : Seats offset p.waits p'.waits x := by
  rw [offerLobWrite] at offered
  split at offered
  next new =>
    cases offered
    have never : r.header.action = .lobWrite := of_decide_eq_true lob
    exact waits_insert_alike (by simp [HeldRecord.wait?, new, never, ChangeAction.isRowChange])
  next held known =>
    have alike {record : ChangeRecord} (same : record.header = held.record.header) :
        waits (p.insert (PartKey.ofRecord r) { held with record }) = p.waits :=
      waits_insert_alike (by simp [HeldRecord.wait?, known, same])
    split at offered <;> rename_i adopted <;> cases offered
    · exact alike (congrArg (fun x => x.1.header) adopted).symm
    · exact alike (congrArg (fun x => x.1.header) adopted).symm

theorem seats_rowChange {p p' : Parts} {table : Option Table} {offset : StreamOffset}
    {r : ChangeRecord} {x : Except Failure (Offered ChangeRecord)}
    (row : r.header.action.isRowChange) (none_ : p.waits = [])
    (offered : p.offerRowChange table offset r = (p', x)) :
    Seats offset p.waits p'.waits x := by
  rw [offerRowChange] at offered
  rw [none_]
  split at offered
  · split at offered <;> cases offered
    · exact ⟨rfl, waits_erase none_ _⟩
    · exact waits_erase none_ _
  · split at offered <;> cases offered
    · refine ⟨rfl, ?_⟩
      rw [waits_insert_first none_]
      simp [HeldRecord.wait?, row]
    · exact ⟨rfl, none_⟩

/-- Whatever is offered, unless it is a row while another one is held. -/
theorem seats_offer {p p' : Parts} {table : Option Table} {offset : StreamOffset}
    {r : ChangeRecord} {x : Except Failure (Offered ChangeRecord)}
    (free : r.isLobWrite ∨ p.waits = []) (offered : p.offer table offset r = (p', x)) :
    Seats offset p.waits p'.waits x := by
  rw [offer] at offered
  by_cases lob : r.isLobWrite
  · rw [if_pos lob] at offered
    exact seats_lobWrite lob offered
  · have none_ := free.resolve_left lob
    rw [if_neg lob] at offered
    split at offered
    next row => exact seats_rowChange row none_ offered
    · cases offered
      exact ⟨none_, none_⟩

end Parts

namespace TransactionSummary

theorem lastOffset_add (e : Entry) (n : Observation) (scn : Option Nat) (time : Option Timestamp)
    (s : TransactionSummary) : (add e n scn time s).lastOffset = s.lastOffset.later n.offset := by
  have scns (s : TransactionSummary) (scn : Nat) : (addScn scn s).lastOffset = s.lastOffset := by
    unfold addScn
    split <;> rfl
  have records (s : TransactionSummary) : (countRecord n.schema s).lastOffset = s.lastOffset := by
    unfold countRecord
    cases n.schema <;> rfl
  unfold add
  cases scn <;> cases time <;> dsimp only [Option.elim] <;> split <;>
    simp only [records, addTime, scns]

end TransactionSummary

namespace Transactions

/-- Where the summary of the transaction at hand is going to be reported. -/
def waits (t : Transactions) : List StreamOffset :=
  (t.current.bind t.summaries.get?).toList.map TransactionSummary.lastOffset

theorem waits_of_current {t : Transactions} {xid : String} (current : t.current = some xid) :
    t.waits = (t.summaries.get? xid).toList.map TransactionSummary.lastOffset := by
  rw [waits, current]
  rfl

/-- No transaction is summed up but the one at hand. -/
def Alone (t : Transactions) : Prop := ∀ xid, t.current ≠ some xid → t.summaries.get? xid = none

theorem lastOffset_new (xid : String) (offset : StreamOffset) :
    (TransactionSummary.new xid).lastOffset.later offset = offset := by
  show StreamOffset.later .zero offset = offset
  unfold StreamOffset.later
  rcases StreamOffset.zero_or_above offset with rfl | above
  · split <;> rfl
  · exact if_pos above

theorem enter_waits {t t' : Transactions} {xid : String} {finished : Option TransactionSummary}
    (alone : t.Alone) (entered : t.enter xid = (t', finished)) :
    t'.current = some xid ∧ t'.Alone ∧
      (finished.toList.map TransactionSummary.lastOffset ++ t'.waits).Sublist t.waits := by
  unfold enter at entered
  split at entered
  next same =>
    cases entered
    exact ⟨same, alone, .refl _⟩
  next other =>
    dsimp only at entered
    split at entered
    next previous current =>
      cases entered
      have new : t.summaries.get? xid = none := alone xid other
      refine ⟨rfl, fun x different => ?_, ?_⟩
      · show (t.summaries.erase previous).get? x = none
        rw [Registry.get?_erase]
        split
        · rfl
        next apart => exact alone x (by simp [current, Ne.symm apart])
      · have gone : waits ⟨some xid, t.summaries.erase previous⟩ = [] := by
          simp [waits, Registry.get?_erase, new]
        dsimp only
        rw [gone, waits_of_current current, List.append_nil, Option.toList_filter]
        exact List.filter_sublist.map _
    next none_ =>
      cases entered
      refine ⟨rfl, fun x _ => alone x (by simp [none_]), ?_⟩
      simp [waits, alone xid other]

theorem add_waits {t : Transactions} {xid : String} (current : t.current = some xid)
    (alone : t.Alone) (e : Entry) (n : Observation) (scn : Option Nat) (time : Option Timestamp) :
    (t.add xid (TransactionSummary.add e n scn time)).Alone ∧
      (t.add xid (TransactionSummary.add e n scn time)).waits.Sublist (t.waits ++ [n.offset]) := by
  have after : (t.add xid (TransactionSummary.add e n scn time)).waits =
      [((t.summaries.get? xid).getD (.new xid)).lastOffset.later n.offset] := by
    simp [waits, add, current, TransactionSummary.lastOffset_add]
  constructor
  · intro x different
    have apart : x ≠ xid := fun same => different (same ▸ current)
    show (t.summaries.insert xid _).get? x = none
    rw [Registry.get?_insert, if_neg apart]
    exact alone x different
  · rw [after, waits_of_current current]
    cases t.summaries.get? xid with
    | none => simp [lastOffset_new]
    | some s =>
      simp only [Option.getD_some, StreamOffset.later]
      split <;> simp

/-- An entry that is observed is where its transaction is reported from then on, if it belongs to
one. -/
theorem observe_waits {t t' : Transactions} {e : Entry} {n : Observation}
    {finished : Option TransactionSummary} (alone : t.Alone)
    (seen : t.observe e n = .ok (t', finished)) :
    t'.Alone ∧ (finished.toList.map TransactionSummary.lastOffset ++ t'.waits).Sublist
      (t.waits ++ [n.offset]) := by
  obtain ⟨named, _, seen⟩ := bind_ok seen
  cases named with
  | none =>
    cases seen
    exact ⟨alone, List.sublist_append_left _ _⟩
  | some xid =>
    obtain ⟨scn, _, seen⟩ := bind_ok seen
    obtain ⟨time, _, seen⟩ := bind_ok seen
    rcases entered : t.enter xid with ⟨m, handed⟩
    rw [entered] at seen
    cases seen
    obtain ⟨current, aloneThen, before⟩ := enter_waits alone entered
    obtain ⟨aloneAfter, after⟩ :=
      add_waits current aloneThen e n scn (time.bind Timestamp.ofUnix?)
    refine ⟨aloneAfter, ?_⟩
    have counted := after.append_left (finished.toList.map TransactionSummary.lastOffset)
    rw [← List.append_assoc] at counted
    exact counted.trans (before.append_right _)

theorem flush_waits (t : Transactions) :
    (t.flush.2.toList.map TransactionSummary.lastOffset).Sublist t.waits := by
  unfold flush
  cases current : t.current with
  | none => simp
  | some xid =>
    rw [waits_of_current current]
    show (((t.summaries.get? xid).filter TransactionSummary.isValid).toList.map _).Sublist _
    rw [Option.toList_filter]
    exact List.filter_sublist.map _

end Transactions

namespace DomainRecord

def isSummary (r : DomainRecord) : Bool :=
  match r.data with
  | .transaction _ => true
  | _ => false

/-- Where the summaries among some records are reported, or where all the others are. -/
def offsets (summaries : Bool) (records : List DomainRecord) : List StreamOffset :=
  (records.filter (fun r => r.isSummary = summaries)).map offset

@[simp] theorem offsets_nil (summaries : Bool) : offsets summaries [] = [] := rfl

@[simp] theorem offsets_append (summaries : Bool) (records more : List DomainRecord) :
    offsets summaries (records ++ more) = offsets summaries records ++ offsets summaries more := by
  simp [offsets]

theorem offsets_sublist {records more : List DomainRecord} (fewer : records.Sublist more)
    (summaries : Bool) : (offsets summaries records).Sublist (offsets summaries more) :=
  (fewer.filter _).map _

theorem offsets_of_same {summaries : Bool} {records : List DomainRecord}
    (same : ∀ r ∈ records, r.isSummary = summaries) :
    offsets summaries records = records.map offset ∧ offsets (!summaries) records = [] := by
  constructor
  · rw [offsets, List.filter_eq_self.mpr fun r member => by simp [same r member]]
  · rw [offsets, List.filter_eq_nil_iff.mpr fun r member => by simp [same r member], List.map_nil]

end DomainRecord

/-- The record of a row that is let go of. -/
def HeldRecord.released (held : HeldRecord) : DomainRecord :=
  ⟨held.offset, .change (.row held.record)⟩

/-- The record of a summary. -/
def TransactionSummary.record (s : TransactionSummary) : DomainRecord :=
  ⟨s.lastOffset, .transaction s⟩

theorem TransactionSummary.offsets_records (handed : Option TransactionSummary) :
    offsets true (handed.toList.map record) = handed.toList.map lastOffset ∧
      offsets false (handed.toList.map record) = [] := by
  have all : ∀ r ∈ handed.toList.map record, r.isSummary = true := by
    simp [record, DomainRecord.isSummary]
  obtain ⟨summaries, others⟩ := offsets_of_same all
  exact ⟨summaries.trans List.map_map, others⟩

/-- The records that have been let go of, and what more of them may be left. -/
structure Written where
  batch : List DomainRecord
  parts : Parts
  transactions : Transactions

namespace Written

/-- Where summaries have been reported and are going to be reported, or all other records. -/
def trail (w : Written) (summaries : Bool) : List StreamOffset :=
  offsets summaries w.batch ++ if summaries then w.transactions.waits else w.parts.waits

/-- Rows are held only where they are put together, and one transaction is summed up at a time. -/
structure Sound (o : StreamOptions) (w : Written) : Prop where
  apart : o.pairs = false → w.parts.waits = []
  alone : w.transactions.Alone

/-- What an entry that is reported at some offset does: at most one more row and one more summary go
out there or wait. -/
structure Leads (o : StreamOptions) (offset : StreamOffset) (w w' : Written) : Prop where
  trail : ∀ summaries, (w'.trail summaries).Sublist (w.trail summaries ++ [offset])
  sound : w'.Sound o

variable {o : StreamOptions} {offset : StreamOffset} {w w' : Written}

theorem Leads.refl (sound : w.Sound o) : Leads o offset w w :=
  ⟨fun _ => List.sublist_append_left _ _, sound⟩

theorem leads_of (finished : Option TransactionSummary) (own : List DomainRecord)
    (batch : w'.batch = w.batch ++ (finished.toList.map TransactionSummary.record ++ own))
    (plain : ∀ r ∈ own, r.isSummary = false)
    (rows : (own.map DomainRecord.offset ++ w'.parts.waits).Sublist (w.parts.waits ++ [offset]))
    (sums : (finished.toList.map TransactionSummary.lastOffset ++ w'.transactions.waits).Sublist
      (w.transactions.waits ++ [offset]))
    (sound : w'.Sound o) : Leads o offset w w' := by
  refine ⟨fun summaries => ?_, sound⟩
  obtain ⟨records, others⟩ := offsets_of_same plain
  obtain ⟨handed, rest⟩ := TransactionSummary.offsets_records finished
  cases summaries with
  | false =>
    simp only [trail, batch, offsets_append, records, rest, List.nil_append, List.append_assoc]
    exact rows.append_left _
  | true =>
    have others : offsets true own = [] := others
    simp only [trail, batch, offsets_append, handed, others, List.append_nil, List.append_assoc]
    exact sums.append_left _

end Written

namespace Desk

open ChangeCapture.Action

variable {o : StreamOptions}

def written (d : Desk) : Written := ⟨d.state.batch, d.state.cache.parts, d.transactions⟩

theorem calm_written : Calm written where
  say _ _ := rfl
  catalog _ _ := rfl
  features _ _ := rfl
  included _ _ := rfl

theorem written_emit (delivering : o.Delivering) (d : Desk) (r : DomainRecord) :
    (d.emit o.gates r).written =
      ⟨d.state.batch ++ [r], d.state.cache.parts, d.transactions⟩ := by
  have core := core_emit o.gates d r
  have parts : (d.emit o.gates r).state.cache.parts = d.state.cache.parts :=
    congrArg (fun c => c.state.cache.parts) core
  have transactions : (d.emit o.gates r).core.transactions = d.core.transactions := by rw [core]
  have delivered : [r].filter o.delivers = [r] :=
    List.filter_cons_of_pos (by simp [StreamOptions.delivers, delivering _])
  rw [written, batch_emit, delivered, parts]
  exact congrArg (Written.mk _ _) transactions

theorem written_withTransactions (delivering : o.Delivering) (d : Desk) (t : Transactions)
    (finished : Option TransactionSummary) :
    (d.withTransactions o.gates t finished).written =
      ⟨d.state.batch ++ finished.toList.map TransactionSummary.record, d.state.cache.parts, t⟩ := by
  cases finished with
  | none => exact congrArg (Written.mk · _ _) (List.append_nil _).symm
  | some s => exact written_emit delivering _ _

theorem written_release (delivering : o.Delivering) (d : Desk) :
    (d.release o.gates).written =
      ⟨d.state.batch ++ d.state.cache.parts.release.2.map HeldRecord.released,
        d.state.cache.parts.release.1, d.transactions⟩ := by
  have emitted (held : List HeldRecord) (d : Desk) :
      (held.foldl (fun d h => d.emit o.gates h.released) d).written =
        ⟨d.state.batch ++ held.map HeldRecord.released, d.state.cache.parts, d.transactions⟩ := by
    induction held generalizing d with
    | nil => exact congrArg (Written.mk · _ _) (List.append_nil _).symm
    | cons h held ih =>
      have first := written_emit delivering d h.released
      simp only [written, Written.mk.injEq] at first
      rw [List.foldl_cons, ih, first.1, first.2.1, first.2.2, List.append_assoc]
      rfl
  exact emitted _ _

theorem trail_release (delivering : o.Delivering) (d : Desk) (summaries : Bool) :
    (d.release o.gates).written.trail summaries = d.written.trail summaries := by
  let rows := d.state.cache.parts.release.2.map HeldRecord.released
  have plain : ∀ r ∈ rows, r.isSummary = false := by
    intro r member
    obtain ⟨_, _, rfl⟩ := List.mem_map.mp member
    rfl
  obtain ⟨records, others⟩ := offsets_of_same plain
  have places : rows.map DomainRecord.offset = d.state.cache.parts.waits :=
    List.map_map.trans d.state.cache.parts.offset_release
  rw [places] at records
  rw [written_release delivering]
  cases summaries with
  | false =>
    show offsets false (d.state.batch ++ rows) ++ Parts.waits d.state.cache.parts.release.1 = _
    rw [offsets_append, records, Parts.waits_release, List.append_nil]
    rfl
  | true =>
    show offsets true (d.state.batch ++ rows) ++ d.transactions.waits = _
    rw [offsets_append, show offsets true rows = [] from others, List.append_nil]
    rfl

theorem observe_written (delivering : o.Delivering) (e : Entry) (n : Observation) (d : Desk)
    (alone : d.transactions.Alone) : ∃ (finished : Option TransactionSummary) (t : Transactions),
      t.Alone ∧
      (observe o e n d).2.written = ⟨d.state.batch ++ finished.toList.map TransactionSummary.record,
        d.state.cache.parts, t⟩ ∧
      (finished.toList.map TransactionSummary.lastOffset ++ t.waits).Sublist
        (d.transactions.waits ++ [n.offset]) := by
  rw [observe_run]
  rcases seen : d.transactions.observe e n with f | ⟨t, finished⟩
  · exact ⟨none, d.transactions, alone, congrArg (Written.mk · _ _) (List.append_nil _).symm,
      List.sublist_append_left _ _⟩
  · obtain ⟨aloneAfter, sums⟩ := Transactions.observe_waits alone seen
    exact ⟨finished, t, aloneAfter, written_withTransactions delivering d t finished, sums⟩

theorem leads_observe (delivering : o.Delivering) {e : Entry} {n : Observation} {d : Desk}
    (sound : d.written.Sound o) : d.written.Leads o n.offset (observe o e n d).2.written := by
  obtain ⟨finished, t, alone, after, sums⟩ := observe_written delivering e n d sound.alone
  rw [after]
  exact Written.leads_of finished [] (by simp [written]) (by simp) (List.sublist_append_left _ _)
    sums ⟨sound.apart, alone⟩

/-- What an offer does to where rows are going to be reported. -/
theorem offer_seats {offset : StreamOffset} {c : Change} (view : c.view = o.config.view)
    {d d' : Desk} {x : Except Failure (Offered Change)} (sound : d.written.Sound o)
    (free : c.header.action = .lobWrite ∨ d.state.cache.parts.waits = [])
    (run : offer o offset c d = (x, d')) : ∃ parts, d'.written = { d.written with parts } ∧
      Seats offset d.state.cache.parts.waits parts.waits x ∧
      (o.pairs = false → parts = d.state.cache.parts) := by
  have apart (single : o.pairs = false) :
      Seats offset d.state.cache.parts.waits d.state.cache.parts.waits (.ok (.emitted c)) :=
    ⟨sound.apart single, sound.apart single⟩
  cases c with
  | vector v =>
    cases run
    exact ⟨_, rfl, apart (by simp [StreamOptions.pairs, ← view, Change.view]), fun _ => rfl⟩
  | row r =>
    unfold offer at run
    dsimp only at run
    cases merges : o.config.mergeMultipart with
    | false =>
      rw [if_neg (by rw [merges]; decide)] at run
      cases run
      exact ⟨_, rfl, apart (by simp [StreamOptions.pairs, merges]), fun _ => rfl⟩
    | true =>
      rw [if_pos merges] at run
      let offered := d.state.cache.parts.offer
        (d.state.cache.catalog.dictionary.get? r.header.tableId) offset r
      have seats : Seats offset d.state.cache.parts.waits offered.1.waits offered.2 :=
        Parts.seats_offer (free.imp_left (decide_eq_true ·)) rfl
      have pairs : o.pairs = true := by simp [StreamOptions.pairs, merges, ← view, Change.view]
      have done : (Action.ofExcept offered.2 >>= fun x => pure (x.map .row) :
          Action Desk (Offered Change)) (d.withCache { d.state.cache with parts := offered.1 }) =
            (x, d') := run
      rw [ofExcept_bind_apply] at done
      refine ⟨offered.1, ?_, ?_, fun single => by rw [pairs] at single; cases single⟩
      · rcases result : offered.2 with f | y <;> rw [result] at done <;> cases done <;> rfl
      · rcases result : offered.2 with f | _ | _ | _ <;> rw [result] at done seats <;>
          cases done <;> exact seats

theorem leads_offered (delivering : o.Delivering) {e : Entry} {n : Observation} {w : Written}
    {parts : Parts} {m d' : Desk} {x : Offered Change} {result : Except Failure Unit}
    (left : m.written = ⟨w.batch, parts, w.transactions⟩)
    (sound : m.written.Sound o)
    (run : (match x with
      | .fragment => pure ()
      | .held => observe o e n
      | .emitted change => do
        observe o e n
        modify (fun d => d.emit o.gates ⟨n.offset, .change change⟩) : Action Desk Unit) m =
          (result, d')) (seats : Seats n.offset w.parts.waits parts.waits (.ok x)) :
    w.Leads o n.offset d'.written := by
  simp only [written, Written.mk.injEq] at left
  obtain ⟨batch, held, transactions⟩ := left
  obtain ⟨finished, t, alone, after, sums⟩ := observe_written delivering e n m sound.alone
  rw [batch, held] at after
  rw [transactions] at sums
  have apart : o.pairs = false → parts.waits = [] := fun single => held ▸ sound.apart single
  cases x with
  | fragment =>
    cases run
    refine Written.leads_of none [] (by simp [written, batch])
      (by simp) ?_ ?_ sound
    · rw [show m.written.parts = parts from held, show parts.waits = _ from seats]
      exact List.sublist_append_left _ _
    · rw [show m.written.transactions = _ from transactions]
      exact List.sublist_append_left _ _
  | held =>
    obtain ⟨none_, waits⟩ := seats
    dsimp only at run
    rw [show d' = (observe o e n m).2 from congrArg Prod.snd run.symm, after]
    refine Written.leads_of finished [] (by simp) (by simp) ?_ sums ⟨apart, alone⟩
    simp [waits]
  | emitted c =>
    obtain ⟨none_, waits⟩ := seats
    dsimp only at run
    rcases Action.bind_run run with ⟨_, failed, -⟩ | ⟨_, k, counted, emitted⟩
    · rw [failed] at after
      rw [after]
      exact Written.leads_of finished [] (by simp) (by simp) (by simp [waits]) sums ⟨apart, alone⟩
    · rw [counted] at after
      cases emitted
      simp only [written, Written.mk.injEq] at after
      rw [written_emit delivering, after.1, after.2.1, after.2.2]
      refine Written.leads_of finished [⟨n.offset, .change c⟩] (by simp) ?_ ?_ sums ⟨apart, alone⟩
      · simp [DomainRecord.isSummary]
      · simp [waits]

theorem leads_decoded (delivering : o.Delivering) {e : Entry} (id : RecordId) {n : Observation}
    {a d' : Desk} {result : Except Failure Unit} (sound : a.written.Sound o)
    (free : e.kind = .lobWrite ∨ a.state.cache.parts.waits = [])
    (run : (assemble o e id >>= fun c => offer o n.offset c >>= fun x => match x with
      | .fragment => pure ()
      | .held => observe o e n
      | .emitted change => do
        observe o e n
        modify (fun d => d.emit o.gates ⟨n.offset, .change change⟩) : Action Desk Unit) a =
          (result, d')) :
    a.written.Leads o n.offset d'.written := by
  rcases Action.bind_run run with ⟨f, failed, -⟩ | ⟨c, m, decoded, run⟩
  · rw [(calm_written.assemble e id).eq failed]
    exact .refl sound
  have given := assembled decoded
  have kept : m.written = a.written := (calm_written.assemble e id).eq decoded
  have same : m.state.cache.parts = a.state.cache.parts := congrArg Written.parts kept
  rcases offered : offer o n.offset c m with ⟨x, k⟩
  obtain ⟨parts, left, seats, apart⟩ := offer_seats given.view (kept ▸ sound)
    (free.imp given.lobWrite_iff.mpr fun none_ => same ▸ none_) offered
  rw [kept] at left
  rw [same] at seats apart
  have soundThen : k.written.Sound o := by
    rw [left]
    exact ⟨fun single => apart single ▸ sound.apart single, sound.alone⟩
  rw [bind_apply, offered] at run
  cases x with
  | error f =>
    cases run
    refine Written.leads_of none [] (by simp [left]) (by simp) ?_ ?_ soundThen
    · rw [left]
      exact (show parts.waits = _ from seats) ▸ List.sublist_append_left _ _
    · rw [left]
      exact List.sublist_append_left _ _
  | ok x => exact leads_offered delivering left soundThen run seats

theorem leads_change (delivering : o.Delivering) {e : Entry} (id : RecordId)
    (offset : StreamOffset) {d : Desk} (sound : d.written.Sound o)
    (free : e.kind = .lobWrite ∨ d.state.cache.parts.waits = []) :
    d.written.Leads o offset (change o e id offset d).2.written := by
  rcases run : change o e id offset d with ⟨result, d'⟩
  rcases Action.bind_run run with ⟨_, got, -⟩ | ⟨_, _, got, run⟩ <;> cases got
  dsimp only at run ⊢
  split at run
  · cases run
    exact .refl sound
  rcases Action.bind_run run with ⟨_, known, -⟩ | ⟨schema, d, known, run⟩ <;>
    obtain ⟨-, rfl⟩ := ofExcept_run known
  · exact .refl sound
  rw [bind_apply, parses_apply] at run
  dsimp only at run
  have asked : (d.asked o.gates .parse ⟨e.kind, schema, offset⟩).written = d.written := rfl
  generalize d.asked o.gates .parse ⟨e.kind, schema, offset⟩ = a at run asked
  rw [← asked] at sound ⊢
  cases passes : o.gates .parse ⟨e.kind, schema, offset⟩ with
  | false =>
    rw [passes, if_neg Bool.false_ne_true] at run
    have observed := leads_observe delivering (e := e) (n := ⟨d.state.file.uid, id, offset, schema⟩)
      sound
    rw [run] at observed
    exact observed
  | true =>
    rw [passes, if_pos rfl] at run
    have before : a.state.cache.parts = d.state.cache.parts := congrArg Written.parts asked
    exact leads_decoded delivering id (n := ⟨d.state.file.uid, id, offset, schema⟩) sound
      (free.imp_right fun none_ => before ▸ none_) run

theorem written_metadata (delivering : o.Delivering) (e : Entry) (offset : StreamOffset)
    (d : Desk) : (metadata o e offset d).2.written = d.written ∨ ∃ document,
      (metadata o e offset d).2.written = ⟨d.state.batch ++ [⟨offset, .metadata document⟩],
        d.state.cache.parts, d.transactions⟩ := by
  rcases run : metadata o e offset d with ⟨result, d'⟩
  rcases Action.bind_run run with ⟨_, got, -⟩ | ⟨_, _, got, run⟩ <;> cases got
  dsimp only at run ⊢
  rcases Action.bind_run run with ⟨_, known, -⟩ | ⟨schema, d, known, run⟩ <;>
    obtain ⟨-, rfl⟩ := ofExcept_run known
  · exact .inl rfl
  rw [bind_apply, parses_apply] at run
  dsimp only at run
  split at run
  · rcases Action.bind_run run with ⟨_, applied, -⟩ | ⟨⟨catalog, document⟩, _, applied, run⟩ <;>
      obtain ⟨-, rfl⟩ := ofExcept_run applied
    · exact .inl rfl
    · cases document with
      | none =>
        cases run
        exact .inl rfl
      | some document =>
        cases run
        exact .inr ⟨document, written_emit delivering _ _⟩
  · cases run
    exact .inl rfl

theorem leads_perform (delivering : o.Delivering) {e : Entry} (id : RecordId)
    (offset : StreamOffset) {d : Desk} (sound : d.written.Sound o)
    (free : e.kind = .lobWrite ∨ d.state.cache.parts.waits = []) :
    d.written.Leads o offset (perform o e id offset d).2.written := by
  have after {x : Action Desk Unit} (leads : d.written.Leads o offset (x d).2.written) :
      d.written.Leads o offset
        ((x >>= fun _ => pure none : Action Desk (Option Included)) d).2.written := by
    rw [bind_apply]
    split <;> rename_i done <;> rw [done] at leads <;> exact leads
  have quiet {x : Action Desk Unit} (keeps : Keeps written x) :
      d.written.Leads o offset (x d).2.written := by
    rw [keeps d]
    exact .refl sound
  generalize performed : perform o e id offset = x
  unfold perform at performed
  split at performed <;> subst performed
  · exact after (quiet (.modify fun d => calm_written.warn d _))
  · exact after (quiet (calm_written.header e))
  · exact after (quiet (.modify fun _ => rfl))
  next document =>
    have none_ : d.written.parts.waits = [] := free.resolve_left (by rw [document]; nofun)
    refine after ?_
    rcases written_metadata delivering e offset d with same | ⟨found, emitted⟩
    · rw [same]
      exact .refl sound
    · rw [emitted]
      refine Written.leads_of none [⟨offset, .metadata found⟩] rfl ?_ ?_
        (List.sublist_append_left _ _) ⟨sound.apart, sound.alone⟩
      · simp [DomainRecord.isSummary]
      · rw [none_, show d.state.cache.parts.waits = [] from none_]
        exact .refl _
  · exact after (x := observe o e ⟨d.state.file.uid, id, offset, none⟩)
      (leads_observe delivering (n := ⟨d.state.file.uid, id, offset, none⟩) sound)
  · rw [bind_apply, includeFile_apply]
    split <;> rename_i done <;> split at done <;> cases done <;> exact .refl sound
  · exact after (quiet (calm_written.includeStats e))
  · exact after (leads_change delivering id offset sound free)

/-- What an entry does from the first. -/
theorem leads_process (delivering : o.Delivering) (e : Entry) {d : Desk}
    (sound : d.written.Sound o) :
    d.written.Leads o (d.reported e) (process o e d).2.written := by
  rw [process_apply]
  by_cases lob : e.kind = .lobWrite
  · have same : (d.cleared o e).written = d.written := by
      rw [cleared, if_neg (not_not_intro lob)]
      rfl
    rw [← same] at sound ⊢
    exact leads_perform delivering _ _ sound (.inl lob)
  · have released : (d.cleared o e).written = (release o.gates
        d.counted).written := by
      rw [cleared, if_pos lob]
    have trail (summaries : Bool) :
        (d.cleared o e).written.trail summaries = d.written.trail summaries := by
      rw [released, trail_release delivering]
      rfl
    rw [written_release delivering] at released
    have none_ : (d.cleared o e).state.cache.parts.waits = [] :=
      (congrArg (fun w => w.parts.waits) released).trans (Parts.waits_release _)
    have transactions : (d.cleared o e).transactions = d.transactions :=
      congrArg Written.transactions released
    have leads := leads_perform delivering (e := e) (d := d.cleared o e) d.nextId (d.reported e)
      ⟨fun _ => none_, (show (d.cleared o e).transactions.Alone from transactions ▸ sound.alone)⟩
      (.inr none_)
    exact ⟨fun summaries => trail summaries ▸ leads.trail summaries, leads.sound⟩

end Desk

namespace Desk

variable {o : StreamOptions}

theorem offsets_flushTransactions (delivering : o.Delivering) (d : Desk) (summaries : Bool) :
    (offsets summaries (d.flushTransactions o.gates).state.batch).Sublist
      (d.written.trail summaries) := by
  have transactions : (d.release o.gates).transactions = d.transactions :=
    congrArg Written.transactions (written_release delivering d)
  have emitted : (d.flushTransactions o.gates).state.batch = (d.release o.gates).state.batch ++
      d.transactions.flush.2.toList.map TransactionSummary.record := by
    rw [← transactions]
    exact congrArg Written.batch (written_withTransactions delivering _ _ _)
  obtain ⟨handed, rest⟩ := TransactionSummary.offsets_records d.transactions.flush.2
  rw [← trail_release delivering, emitted, offsets_append]
  cases summaries with
  | false =>
    rw [rest, List.append_nil]
    exact List.sublist_append_left _ _
  | true =>
    rw [handed, Written.trail, if_pos rfl, show (release _ d).written.transactions = _ from
      transactions]
    exact d.transactions.flush_waits.append_left _

end Desk

namespace Processed

/-- Where an entry is reported. -/
def place (p : Processed) : StreamOffset := p.desk.reported p.entry

end Processed

namespace Session

variable {o : StreamOptions} {depth : Nat} {s t : Session} {ps : List Processed}

/-- What is left to be let go of. -/
def pending (s : Session) : Written := ⟨[], s.books.1, s.books.2⟩

theorem pending_of_books {d : Desk} (same : d.books = s.books) (empty : d.state.batch = []) :
    d.written = s.pending := by
  rw [pending, ← same, ← empty]
  rfl

/-- What becomes of what is left to be let go of on the way from one session to another, where all
records are delivered. -/
structure Trails (o : StreamOptions) (s : Session) (ps : List Processed) (t : Session) : Prop where
  sound : t.pending.Sound o
  trail : ∀ summaries, (offsets summaries (Processed.allRecords o.deliveringAll ps) ++
    t.pending.trail summaries).Sublist (s.pending.trail summaries ++ ps.map Processed.place)

theorem Between.trails (between : Between o s t ps) (sound : s.pending.Sound o) :
    Trails o s ps t := by
  cases between with
  | nothing same =>
    have same : t.pending = s.pending := by rw [pending, same, ← pending]
    exact ⟨same ▸ sound, fun summaries => by simp [same]⟩
  | @entry p found empty left =>
    rw [← pending_of_books found empty] at sound
    obtain ⟨trail, apart, alone⟩ := Desk.leads_process o.delivering_deliveringAll p.entry
      (d := p.desk) ⟨sound.apart, sound.alone⟩
    have after : t.pending = ⟨[], (p.after o.deliveringAll).written.parts,
        (p.after o.deliveringAll).written.transactions⟩ := by
      rw [pending, left, ← Processed.books_deliveringAll o empty]
      rfl
    refine ⟨after ▸ ⟨apart, alone⟩, fun summaries => ?_⟩
    rw [Processed.allRecords_singleton, after, ← pending_of_books found empty]
    exact trail summaries

theorem Trails.refl (sound : s.pending.Sound o) : Trails o s [] s :=
  ⟨sound, fun summaries => by simp⟩

theorem Trails.trans {m : Session} {qs : List Processed} (first : Trails o s ps m)
    (rest : Trails o m qs t) : Trails o s (ps ++ qs) t := by
  refine ⟨rest.sound, fun summaries => ?_⟩
  have more := (rest.trail summaries).append_left
    (offsets summaries (Processed.allRecords o.deliveringAll ps))
  have before := (first.trail summaries).append_right (qs.map Processed.place)
  rw [List.append_assoc] at before
  simpa [List.append_assoc] using more.trans before

/-- All along a path, records are reported where the entries are, in the order of these. -/
theorem Path.trails (path : Path o depth s ps t) (nested : s.WellNested)
    (sound : s.pending.Sound o) : Trails o s ps t := by
  induction path with
  | nil => exact .refl sound
  | cons step _ ih =>
    have first := (step.between nested).trails sound
    exact first.trans (ih (step.wellNested nested) first.sound)

theorem Path.selected (path : Path o depth s ps t) (nested : s.WellNested) :
    Processed.allRecords o ps =
      (Processed.allRecords o.deliveringAll ps).filter o.delivers := by
  induction path with
  | nil => rfl
  | cons step _ ih =>
    rw [Processed.allRecords_append, Processed.allRecords_append, List.filter_append,
      (step.between nested).selected, ih (step.wellNested nested)]

end Session

theorem LogStream.Starts.pending {file : LogFile} {source : Source} {o : StreamOptions}
    {s : LogStream} {j : Journal} (starts : Starts file source o .empty s)
    (untouched : j.summaries = ∅) : (s.session j).pending = ⟨[], ∅, .empty⟩ := by
  rw [Session.pending, starts.books untouched]

end ChangeCapture
