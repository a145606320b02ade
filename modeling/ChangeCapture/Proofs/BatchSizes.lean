import ChangeCapture.Proofs.Phases

/-! How large a batch gets. At most one row is held at any time, so an entry lets at most one row go,
hands out at most one summary and adds at most one record of its own; and an included file only fills
the room that is left. A batch goes beyond its size by two records at most, and falls short of it only
where the file is done or a read fails. -/
namespace ChangeCapture

open DomainRecord

/-- A row that was held, the summary of a transaction that has ended, and a record of an entry's own,
each of which may be missing. -/
def Emission (place : StreamOffset) (records : List DomainRecord) : Prop :=
  ∃ (row : Option HeldRecord) (finished : Option TransactionSummary) (own : Option DomainRecord),
    records = row.toList.map HeldRecord.released ++
      (finished.toList.map TransactionSummary.record ++ own.toList) ∧
    ∀ r ∈ own, r.offset = place ∧ r.isSummary = false

theorem Emission.length_le {place : StreamOffset} {records : List DomainRecord}
    (emission : Emission place records) : records.length ≤ 3 := by
  obtain ⟨row, finished, own, rfl, -⟩ := emission
  have most {α : Type} (x : Option α) : x.toList.length ≤ 1 := by cases x <;> simp
  have := most row
  have := most finished
  have := most own
  simp only [List.length_append, List.length_map]
  omega

theorem exists_filter_toList {α : Type} (p : α → Bool) (x : Option α) :
    ∃ y : Option α, x.toList.filter p = y.toList ∧ ∀ a ∈ y, a ∈ x := by
  cases x with
  | none => exact ⟨none, rfl, nofun⟩
  | some a =>
    by_cases passes : p a
    · exact ⟨some a, by simp [passes], fun _ => id⟩
    · exact ⟨none, by simp [passes], nofun⟩

namespace Desk

open ChangeCapture.Action

variable {o : StreamOptions}

theorem calm_batch : Calm (fun d => d.state.batch) where
  say _ _ := rfl
  catalog _ _ := rfl
  features _ _ := rfl
  included _ _ := rfl

/-- Puts at most a summary and one other record, which is reported at some offset, into the batch. -/
def Adds (place : StreamOffset) (x : Action Desk α) : Prop :=
  ∀ d, ∃ (finished : Option TransactionSummary) (own : Option DomainRecord),
    (x d).2.state.batch =
      d.state.batch ++ (finished.toList.map TransactionSummary.record ++ own.toList) ∧
    ∀ r ∈ own, r.offset = place ∧ r.isSummary = false

namespace Adds

variable {place : StreamOffset}

theorem of_keeps {x : Action Desk α} (keeps : Keeps (fun d => d.state.batch) x) : Adds place x :=
  fun d => ⟨none, none, by simp [keeps d], by simp⟩

theorem read {f : Desk → Action Desk α} (rest : ∀ d, Adds place (f d)) : Adds place (get >>= f) :=
  fun d => rest d d

theorem after {x : Action Desk α} {f : α → Action Desk β}
    (first : Keeps (fun d => d.state.batch) x) (rest : ∀ a, Adds place (f a)) :
    Adds place (x >>= f) := by
  intro d
  have same := first d
  rw [bind_apply]
  rcases taken : x d with ⟨g | a, m⟩ <;> rw [taken] at same <;> dsimp only at same ⊢
  · exact ⟨none, none, by simp [same], by simp⟩
  · rw [← same]
    exact rest a m

theorem before {x : Action Desk α} {f : α → Action Desk β} (first : Adds place x)
    (rest : ∀ a, Keeps (fun d => d.state.batch) (f a)) : Adds place (x >>= f) := by
  intro d
  obtain ⟨finished, own, batch, plain⟩ := first d
  rw [bind_apply]
  rcases taken : x d with ⟨g | a, m⟩ <;> rw [taken] at batch
  · exact ⟨finished, own, batch, plain⟩
  · exact ⟨finished, own, (rest a m).trans batch, plain⟩

end Adds

theorem adds_emit {place : StreamOffset} {r : DomainRecord} (there : r.offset = place)
    (plain : r.isSummary = false) : Adds place (modify (fun d => d.emit o.gates r)) := by
  intro d
  obtain ⟨own, left, among⟩ := exists_filter_toList o.delivers (some r)
  refine ⟨none, own, ?_, fun x member => ?_⟩
  · exact (batch_emit o d r).trans (congrArg (d.state.batch ++ ·) left)
  · obtain rfl : r = x := Option.some.inj (among x member)
    exact ⟨there, plain⟩

theorem batch_observe (e : Entry) (n : Observation) (d : Desk) :
    ∃ finished : Option TransactionSummary, (observe o e n d).2.state.batch =
      d.state.batch ++ finished.toList.map TransactionSummary.record := by
  rw [observe_run]
  rcases d.transactions.observe e n with f | ⟨t, finished⟩
  · exact ⟨none, by simp⟩
  · obtain ⟨handed, state, -⟩ := state_withTransactions o d t finished
    exact ⟨handed, congrArg FileState.batch state⟩

theorem adds_observe {place : StreamOffset} (e : Entry) (n : Observation) :
    Adds place (observe o e n) := by
  intro d
  obtain ⟨finished, batch⟩ := batch_observe (o := o) e n d
  exact ⟨finished, none, by simpa using batch, by simp⟩

theorem adds_observe_emit {place : StreamOffset} (e : Entry) (n : Observation) {r : DomainRecord}
    (there : r.offset = place) (plain : r.isSummary = false) :
    Adds place (observe o e n >>= fun _ => modify (fun d => d.emit o.gates r)) := by
  intro d
  obtain ⟨finished, counted⟩ := batch_observe (o := o) e n d
  rw [bind_apply]
  rcases seen : observe o e n d with ⟨g | _, m⟩ <;> rw [seen] at counted <;> dsimp only at counted ⊢
  · exact ⟨finished, none, by simpa using counted, by simp⟩
  · obtain ⟨own, left, among⟩ := exists_filter_toList o.delivers (some r)
    refine ⟨finished, own, ?_, fun x member => ?_⟩
    · rw [← List.append_assoc, ← counted, ← left]
      exact batch_emit o m r
    · obtain rfl : r = x := Option.some.inj (among x member)
      exact ⟨there, plain⟩

@[simp] theorem batch_withCache (d : Desk) (c : Cache) :
    (d.withCache c).state.batch = d.state.batch := rfl

theorem keeps_batch_offer (offset : StreamOffset) (c : Change) :
    Keeps (fun d => d.state.batch) (offer o offset c) := by
  unfold offer
  cases c with
  | vector => exact .pure _
  | row record =>
    dsimp only
    split
    · refine .read fun d => ?_
      exact (Keeps.modify (batch_withCache · _)).bind fun _ =>
        (Keeps.ofExcept _).bind fun _ => .pure _
    · exact .pure _

theorem adds_change (e : Entry) (id : RecordId) (offset : StreamOffset) :
    Adds offset (change o e id offset) := by
  refine .read fun d => ?_
  dsimp only
  split
  · exact .of_keeps fun _ => rfl
  refine .after (.ofExcept _) fun _ => .after (calm_batch.parses _) fun passes => ?_
  cases passes with
  | false => exact adds_observe e _
  | true =>
    refine .after (calm_batch.assemble e id) fun c =>
      .after (keeps_batch_offer offset c) fun offered => ?_
    cases offered with
    | fragment => exact .of_keeps (.pure _)
    | held => exact adds_observe e _
    | emitted c => exact adds_observe_emit e _ rfl rfl

theorem adds_metadata (e : Entry) (offset : StreamOffset) : Adds offset (metadata o e offset) := by
  refine .read fun d => .after (.ofExcept _) fun _ => .after (calm_batch.parses _) fun passes => ?_
  cases passes with
  | false => exact .of_keeps (.pure _)
  | true =>
    refine .after (.ofExcept _) fun (catalog, document) =>
      .after (.modify (calm_batch.catalog · catalog)) fun _ => ?_
    cases document with
    | none => exact .of_keeps (.pure _)
    | some document => exact adds_emit rfl rfl

theorem adds_perform (e : Entry) (id : RecordId) (offset : StreamOffset) :
    Adds offset (perform o e id offset) := by
  unfold perform
  split
  · exact .before (.of_keeps (.modify fun d => calm_batch.warn d _)) fun _ => .pure _
  · exact .before (.of_keeps (calm_batch.header e)) fun _ => .pure _
  · exact .of_keeps fun _ => rfl
  · exact .before (adds_metadata e offset) fun _ => .pure _
  · exact .read fun d => .before (adds_observe e _) fun _ => .pure _
  · refine .of_keeps (Keeps.bind (fun d => ?_) fun _ => .pure _)
    rw [includeFile_apply]
    split <;> rfl
  · exact .before (.of_keeps (calm_batch.includeStats e)) fun _ => .pure _
  · exact .before (adds_change e id offset) fun _ => .pure _

theorem batch_release (d : Desk) : (d.release o.gates).state.batch = d.state.batch ++
    (d.state.cache.parts.release.2.map HeldRecord.released).filter o.delivers := by
  have emitted (held : List HeldRecord) (d : Desk) :
      (held.foldl (fun d h => d.emit o.gates h.released) d).state.batch =
        d.state.batch ++ (held.map HeldRecord.released).filter o.delivers := by
    induction held generalizing d with
    | nil => simp
    | cons h held ih => simp [ih, batch_emit, List.filter_cons, List.append_assoc]; split <;> simp
  exact emitted _ _

theorem batch_cleared (e : Entry) {d : Desk} (one : d.state.cache.parts.waits.length ≤ 1) :
    ∃ row : Option HeldRecord, (d.cleared o e).state.batch =
      d.state.batch ++ row.toList.map HeldRecord.released := by
  unfold cleared
  split
  · have held : d.state.cache.parts.release.2.length ≤ 1 := by
      rwa [← d.state.cache.parts.offset_release, List.length_map] at one
    rw [batch_release, Desk.state_counted, FileState.cache_counted, FileState.batch_counted]
    rcases rows : d.state.cache.parts.release.2 with _ | ⟨h, _ | _⟩
    · exact ⟨none, by simp⟩
    · by_cases passes : o.delivers h.released
      · exact ⟨some h, by simp [passes]⟩
      · exact ⟨none, by simp [passes]⟩
    · rw [rows] at held
      simp at held
  · exact ⟨none, by simp⟩

theorem batch_process (e : Entry) {d : Desk} (one : d.state.cache.parts.waits.length ≤ 1) :
    ∃ records, (process o e d).2.state.batch = d.state.batch ++ records ∧
      Emission (d.reported e) records := by
  obtain ⟨row, before⟩ := batch_cleared (o := o) e one
  obtain ⟨finished, own, after, plain⟩ := adds_perform (o := o) e d.nextId (d.reported e)
    (d.cleared o e)
  rw [before, List.append_assoc] at after
  rw [process_apply]
  exact ⟨_, after, row, finished, own, rfl, plain⟩

theorem batch_process_opened {e : Entry} {d : Desk} {i : Included}
    (one : d.state.cache.parts.waits.length ≤ 1) (opened : (process o e d).1 = .ok (some i)) :
    (process o e d).2.state.batch.length ≤ d.state.batch.length + 1 := by
  obtain ⟨row, before⟩ := batch_cleared (o := o) e one
  have most : (d.cleared o e).state.batch.length ≤ d.state.batch.length + 1 := by
    rw [before]
    cases row <;> simp
  rw [process_apply] at opened ⊢
  by_cases include_ : e.kind = .includeFile
  · rw [perform_includeFile o include_]
    split <;> exact most
  · by_cases footer : e.kind = .footer
    · rw [perform_footer o footer] at opened
      cases opened
    · cases perform_opens_nothing o footer include_ opened

/-- What is held once a change was offered: at most one row, if at most one was held before. -/
theorem waits_offer {offset : StreamOffset} {c : Change} {d : Desk}
    (one : d.state.cache.parts.waits.length ≤ 1)
    (free : c.header.action = .lobWrite ∨ d.state.cache.parts.waits = []) :
    (offer o offset c d).2.state.cache.parts.waits.length ≤ 1 := by
  unfold offer
  cases c with
  | vector => exact one
  | row record =>
    dsimp only
    split
    · let offered := d.state.cache.parts.offer
        (d.state.cache.catalog.dictionary.get? record.header.tableId) offset record
      have seats : Seats offset d.state.cache.parts.waits offered.1.waits offered.2 :=
        Parts.seats_offer (free.imp_left (decide_eq_true ·)) rfl
      have after : offered.1.waits.length ≤ 1 := by
        rcases result : offered.2 with f | _ | _ | _ <;> rw [result] at seats
        · exact seats ▸ one
        · simp [seats.2]
        · simp [seats.2]
        · exact seats ▸ one
      show ((Action.ofExcept offered.2 >>= fun x => pure (x.map .row) :
        Action Desk (Offered Change))
          (d.withCache { d.state.cache with parts := offered.1 })).2.state.cache.parts.waits.length ≤ 1
      rw [ofExcept_bind_apply]
      cases offered.2 <;> exact after
    · exact one

/-- What is held before a step, and what is held after it, also if it fails. -/
def Holding (p q : Parts → Prop) (x : Action Desk α) : Prop :=
  ∀ d, p d.state.cache.parts → q (x d).2.state.cache.parts

namespace Holding

variable {p q : Parts → Prop}

theorem of_keeps {x : Action Desk α} (weaker : ∀ parts, p parts → q parts)
    (keeps : Keeps (fun d => d.state.cache.parts) x) : Holding p q x := by
  intro d held
  have same : (x d).2.state.cache.parts = d.state.cache.parts := keeps d
  exact same ▸ weaker _ held

theorem read {f : Desk → Action Desk α} (rest : ∀ d, Holding p q (f d)) :
    Holding p q (get >>= f) := fun d => rest d d

theorem bind {x : Action Desk α} {f : α → Action Desk β} (first : Holding p q x)
    (rest : ∀ a, Holding q q (f a)) : Holding p q (x >>= f) := by
  intro d held
  have after := first d held
  rw [bind_apply]
  rcases taken : x d with ⟨g | a, m⟩ <;> rw [taken] at after
  · exact after
  · exact rest a m after

theorem after {x : Action Desk α} {f : α → Action Desk β} (weaker : ∀ parts, p parts → q parts)
    (first : Keeps (fun d => d.state.cache.parts) x)
    (rest : ∀ a, (∃ d d', x d = (.ok a, d')) → Holding p q (f a)) : Holding p q (x >>= f) := by
  intro d held
  have same := first d
  rw [bind_apply]
  rcases taken : x d with ⟨g | a, m⟩ <;> rw [taken] at same <;> dsimp only at same ⊢
  · rw [same]
    exact weaker _ held
  · exact rest a ⟨d, m, taken⟩ m (by rwa [same])

end Holding

theorem holding_change (e : Entry) (id : RecordId) (offset : StreamOffset) :
    Holding (fun parts => parts.waits.length ≤ 1 ∧ (e.kind = .lobWrite ∨ parts.waits = []))
      (fun parts => parts.waits.length ≤ 1) (change o e id offset) := by
  have observed (n : Observation) : Keeps (fun d => d.state.cache.parts) (observe o e n) :=
    (keeps_observe o e n).part Standing.parts
  refine .read fun d => ?_
  dsimp only
  split
  · exact .of_keeps (fun _ => And.left) fun _ => rfl
  refine .after (fun _ => And.left) (.ofExcept _) fun schema _ =>
    .after (fun _ => And.left) (((quiet_standing o).parses _).part Standing.parts)
      fun passes _ => ?_
  cases passes with
  | false => exact .of_keeps (fun _ => And.left) (observed _)
  | true =>
    refine .after (fun _ => And.left) (((quiet_standing o).assemble e id).part Standing.parts)
      fun c ⟨_, _, decoded⟩ => Holding.bind (fun d ⟨one, free⟩ => ?_) fun offered => ?_
    · exact waits_offer one (free.imp_left (assembled decoded).lobWrite_iff.mpr)
    · cases offered with
      | fragment => exact .of_keeps (fun _ held => held) (.pure _)
      | held => exact .of_keeps (fun _ held => held) (observed _)
      | emitted c =>
        exact .of_keeps (fun _ held => held) ((observed _).bind fun _ => .modify fun d =>
          congrArg (fun d => d.state.cache.parts) (core_emit o.gates d _))

theorem waits_process (e : Entry) {d : Desk} (one : d.state.cache.parts.waits.length ≤ 1) :
    (process o e d).2.state.cache.parts.waits.length ≤ 1 := by
  have free : e.kind = .lobWrite ∨ (d.cleared o e).state.cache.parts.waits = [] := by
    by_cases lob : e.kind = .lobWrite
    · exact .inl lob
    · refine .inr ?_
      rw [cleared, if_pos lob]
      exact waits_release o _
  have before : (d.cleared o e).state.cache.parts.waits.length ≤ 1 := by
    rcases free with lob | none_
    · rw [cleared, if_neg (not_not_intro lob)]
      exact one
    · simp [none_]
  rw [process_apply]
  generalize d.cleared o e = d, d.nextId = id, d.reported e = offset at before free ⊢
  by_cases include_ : e.kind = .includeFile
  · rw [perform_includeFile o include_]
    split <;> exact before
  by_cases footer : e.kind = .footer
  · rw [perform_footer o footer]
    exact before
  cases row : e.kind.isChange with
  | true =>
    rw [perform_change o row]
    exact (holding_change e id offset).bind (fun _ => .of_keeps (fun _ held => held) (.pure _)) d
      ⟨before, free⟩
  | false =>
    obtain ⟨x, performed, keeps⟩ := perform_other o row footer include_ id offset
    rw [performed]
    rwa [show ((x >>= fun _ => pure none : Action Desk (Option Included)) d).2.state.cache.parts =
      d.state.cache.parts from congrArg Standing.parts ((keeps.bind fun _ => .pure _) d)]

end Desk

namespace Session

variable {o : StreamOptions} {depth : Nat} {s t : Session} {ps : List Processed}

/-- At most one row is held where entries are read at the time. -/
def OneHeld (s : Session) : Prop := s.front.parts.waits.length ≤ 1

theorem oneHeld_of_books (same : t.books = s.books) (one : s.OneHeld) : t.OneHeld := by
  have parts : t.front.parts = s.front.parts := congrArg Prod.fst same
  exact (congrArg (fun parts => parts.waits.length ≤ 1) parts).mpr one

theorem Between.oneHeld (between : Between o s t ps) (one : s.OneHeld) :
    t.OneHeld ∧ ∀ p ∈ ps, Emission p.place (p.records o) := by
  cases between with
  | nothing same => exact ⟨oneHeld_of_books same one, nofun⟩
  | @entry p found empty left =>
    have before : p.desk.state.cache.parts = s.front.parts := congrArg Prod.fst found
    have after : t.front.parts = (p.after o).state.cache.parts := congrArg Prod.fst left
    have held : p.desk.state.cache.parts.waits.length ≤ 1 := by rw [before]; exact one
    refine ⟨?_, fun q member => ?_⟩
    · show t.front.parts.waits.length ≤ 1
      rw [after]
      exact Desk.waits_process p.entry held
    · obtain ⟨records, batch, emission⟩ := Desk.batch_process (o := o) p.entry held
      rw [empty, List.nil_append] at batch
      cases List.mem_singleton.mp member
      rwa [← batch] at emission

theorem Path.oneHeld (path : Path o depth s ps t) (nested : s.WellNested) (one : s.OneHeld) :
    t.OneHeld := by
  induction path with
  | nil => exact one
  | cons step _ ih => exact ih (step.wellNested nested) ((step.between nested).oneHeld one).1

/-- A batch that is filled up to a limit: it goes beyond that by two records at most, and not at all
while an included file is open. -/
structure Fits (limit : Nat) (s : Session) : Prop where
  most : s.state.batch.length ≤ limit + 2
  room : s.included ≠ [] → s.state.batch.length ≤ limit

theorem Fits.of_le {limit : Nat} (within : s.state.batch.length ≤ limit) : Fits limit s :=
  ⟨Nat.le_add_right_of_le within, fun _ => within⟩

theorem fits_poll (filler : Filler) {limit : Nat} (room : s.state.batch.length < limit) :
    match s.poll filler limit with
    | .again t | .stop _ t => Fits limit t := by
  unfold poll
  cases s.included with
  | nil => exact .of_le (Nat.le_of_lt room)
  | cons i deeper =>
    dsimp only
    rcases i.fill filler (limit - s.state.batch.length) deeper s.journal with
      ⟨_ | _, i', deeper', journal⟩
    · exact .of_le (Nat.le_of_lt room)
    · have taken : (s.state.batch ++
          i'.state.batch.take (limit - s.state.batch.length)).length ≤ limit := by
        simp only [List.length_append, List.length_take]
        omega
      dsimp only
      by_cases finished : (i'.handOn (limit - s.state.batch.length)).isFinished
      · rw [if_pos finished]
        exact .of_le taken
      · rw [if_neg finished]
        exact .of_le taken

/-- An entry brings three records at most, and no more than one if it opens a file. -/
theorem fits_advance {limit : Nat} (alone : s.included = []) (one : s.OneHeld)
    (room : s.state.batch.length < limit) :
    match s.advance o with
    | .again t | .stop _ t => Fits limit t := by
  unfold advance
  rcases ChunkReader.next s.reader with ⟨f | e, reader⟩
  · exact .of_le (Nat.le_of_lt room)
  · let d : Desk := ⟨{ s.state with phase := .reading }, s.journal⟩
    have held : d.state.cache.parts.waits.length ≤ 1 := by
      rw [OneHeld, front_alone alone] at one
      exact one
    obtain ⟨records, batch, emission⟩ := Desk.batch_process (o := o) e held
    have most : (Desk.process o e d).2.state.batch.length ≤ limit + 2 := by
      have few := emission.length_le
      rw [batch, List.length_append]
      show s.state.batch.length + _ ≤ _
      omega
    have opens (i : Included) (opened : (Desk.process o e d).1 = .ok (some i)) :
        (Desk.process o e d).2.state.batch.length ≤ limit :=
      Nat.le_trans (Desk.batch_process_opened held opened) room
    dsimp only
    rcases processed : Desk.process o e d with ⟨_ | _ | i, after⟩ <;>
      rw [processed] at most opens
    · exact ⟨most, fun open_ => absurd alone open_⟩
    · exact ⟨most, fun open_ => absurd alone open_⟩
    · exact .of_le (opens i rfl)

theorem fits_turn (filler : Filler) {limit : Nat} (nested : s.WellNested)
    (opened : s.state.phase ≠ .unopened) (one : s.OneHeld) (fits : s.Fits limit) :
    match s.turn o filler limit with
    | .again t | .stop _ t => Fits limit t := by
  unfold turn
  by_cases full : limit ≤ s.state.batch.length
  · rw [if_pos full]
    exact fits
  · rw [if_neg full]
    have room := Nat.lt_of_not_le full
    have advances (reads : s.state.phase.readsEntries) :
        match s.advance o with
        | .again t | .stop _ t => Fits limit t :=
      fits_advance (nested.alone_of_reads reads) one room
    cases phase : s.state.phase with
    | unopened => exact absurd phase opened
    | headerRead => exact advances (by rw [phase]; rfl)
    | reading => exact advances (by rw [phase]; rfl)
    | paused => exact fits_poll filler room
    | done => exact fits

theorem fits_run {filler : Filler} (serves : Serves o depth filler) {limit : Nat}
    (nested : s.WellNested) (opened : s.state.phase ≠ .unopened) (one : s.OneHeld)
    (fits : s.Fits limit) : Fits limit (run o filler limit s).2 := by
  induction s using run.induct o filler limit with
  | case1 s result t stops =>
    have last := fits_turn (o := o) filler nested opened one fits
    rw [stops] at last
    rw [run_of_stop stops]
    exact last
  | case2 s t again ih =>
    have next := fits_turn (o := o) filler nested opened one fits
    have turned := filled_turn serves limit nested opened
    rw [again] at next turned
    obtain ⟨ps, path⟩ := turned
    rw [run_of_again again]
    exact ih (path.wellNested nested) (path.opened opened) (path.oneHeld nested one) next

theorem fits_fill (depth : Nat) {limit : Nat} (nested : s.WellNested) (one : s.OneHeld)
    (fits : s.Fits limit) : Fits limit (fill o depth limit s).2 := by
  obtain ⟨filler, serves, same⟩ := fill_serves o depth
  rw [same, fillWith]
  by_cases unopened : s.state.phase = .unopened
  · rw [if_pos unopened]
    rcases header : ChunkReader.fileHeader s.reader with ⟨f | h, reader⟩
    · exact ⟨fits.most, fits.room⟩
    · have step : Step o depth s [] _ := .header unopened header
      exact fits_run serves (step.wellNested nested) Phase.noConfusion
        ((step.between nested).oneHeld one).1 ⟨fits.most, fits.room⟩
  · rw [if_neg unopened]
    exact fits_run serves nested unopened one fits

end Session

namespace LogStream

variable {s t : LogStream} {j k : Journal} {ps : List Processed} {taken : List DomainRecord}
variable {o : StreamOptions}

/-- Telling a stream to emit what it holds lets go of what the file itself holds, and of nothing that
an included file holds. -/
theorem oneHeld_flushTransactions (one : (t.session k).OneHeld) :
    ((t.flushTransactions k).1.session (t.flushTransactions k).2).OneHeld := by
  have stays : (t.flushTransactions k).1.included = t.included := rfl
  rcases included : t.included with _ | ⟨i, deeper⟩
  · rw [Session.OneHeld, Session.front_alone (stays.trans included)]
    show (t.flushTransactions k).1.state.cache.parts.waits.length ≤ 1
    rw [show (t.flushTransactions k).1.state.cache.parts.waits = [] from
      Desk.waits_flushTransactions t.options _]
    exact Nat.zero_le 1
  · rw [Session.OneHeld, Session.front_included (stays.trans included)]
    rwa [Session.OneHeld, Session.front_included (s := t.session k) included] at one

/-- At most one row is held all along a run, and what each entry brings is bounded. -/
theorem Course.oneHeld (course : Course True s j ps taken t k) (nested : (s.session j).WellNested)
    (one : (s.session j).OneHeld) :
    (t.session k).OneHeld ∧ ∀ p ∈ ps, Emission p.place (p.records s.options) := by
  induction course with
  | start => exact ⟨one, nofun⟩
  | step course step ih =>
    obtain ⟨held, before⟩ := ih
    rw [course.options] at step
    obtain ⟨after, last⟩ := (step.between (course.wellNested nested)).oneHeld held
    exact ⟨after, List.forall_mem_append.mpr ⟨before, last⟩⟩
  | fail course fails ih =>
    obtain ⟨held, before⟩ := ih
    rw [course.options] at fails
    obtain ⟨after, last⟩ := (fails.between (course.wellNested nested)).oneHeld held
    exact ⟨after, List.forall_mem_append.mpr ⟨before, last⟩⟩
  | append _ _ ih | flush _ ih => exact ih
  | flushTransactions _ _ ih => exact ⟨oneHeld_flushTransactions ih.1, ih.2⟩

theorem Starts.oneHeld {file : LogFile} {source : Source} (starts : Starts file source o .empty s)
    (j : Journal) : (s.session j).OneHeld := by
  obtain ⟨-, alone, -, cache, -⟩ := starts.fresh
  rw [Session.OneHeld, Session.front_alone alone]
  show s.state.cache.parts.waits.length ≤ 1
  rw [cache]
  decide

/-- Reading with an empty batch, however the stream was used before, and whether or not that failed:
the batch gets at most two records longer than its size, and no longer than its size as long as an
included file is open, which only fills the room that is left. A read that succeeds ends the file or
fills the batch. Each of the entries that are processed, in whichever file, brings at most a row that
was held, the summary of a transaction and a record of its own. -/
theorem read_sizes {file : LogFile} {source : Source} (starts : Starts file source o .empty s)
    (course : Course True s j ps taken t k) (empty : t.state.batch = []) :
    let size := o.config.effectiveBatchSize
    let (result, u, l) := t.read k
    u.state.batch.length ≤ size + 2 ∧ (u.included ≠ [] → u.state.batch.length ≤ size) ∧
      (result = .ok () → u.isDone ∨ size ≤ u.state.batch.length) ∧
      ∃ qs, Course True s j (ps ++ qs) taken u l ∧
        ∀ p ∈ ps ++ qs, Emission p.place (p.records o) := by
  intro size
  have nested := course.wellNested (starts.wellNested j)
  obtain ⟨held, -⟩ := course.oneHeld (starts.wellNested j) (starts.oneHeld j)
  obtain rfl : t.options = o := course.options.trans starts.fresh.1
  have fits : Session.Fits size (t.session k) := .of_le (by simp [session, empty])
  obtain ⟨most, room⟩ : Session.Fits size ((t.read k).2.1.session (t.read k).2.2) :=
    Session.fits_fill (depth t.options) nested held fits
  obtain ⟨qs, further⟩ := course.read nested rfl
  have brings := (further.oneHeld (starts.wellNested j) (starts.oneHeld j)).2
  rw [starts.fresh.1] at brings
  exact ⟨most, room, fun ok => (full_of_read (Prod.ext ok rfl)).symm, qs, further, brings⟩

/-- A row that waits for its large object, and a row of another transaction: reading the second one
brings three records into a batch of one. -/
theorem read_sizes_three :
    let words (chunks : List UInt32) : List UInt8 := chunks.flatMap bytesOfChunk
    let change (xid : UInt32) (table : List (UInt32 × List UInt32)) : List UInt8 := Entry.encode 2 1
      ([(0x0100, [1, xid]), (0x0101, [7, 0]), (0x0102, [1700000000, 0])] ++ table)
    let source : Source := [.bytes (signature ++ words [1, 0] ++
      change 0x31 [(0x0300, [1]), (0x0301, [1, 0x62]), (0x0302, [4, 0x424f4c43])] ++
      change 0x32 [(0x0200, [5])] ++ Entry.encode 0 1 [])]
    let o : StreamOptions := ⟨⟨some 1, true, .row, false⟩, .accepting, none⟩
    let s := ofSource ⟨3, 5, "a"⟩ source o .empty
    let read := s.read .empty
    s.state.batch = [] ∧
      read.2.1.state.batch.map DomainRecord.kind = [.insert, .commit, .insert] ∧
      read.2.1.state.batch.length ≤ o.config.effectiveBatchSize + 2 ∧
      ∃ qs, Course True s .empty qs [] read.2.1 read.2.2 ∧
        ∀ p ∈ qs, Emission p.place (p.records o) := by
  intro words change source o s read
  obtain ⟨most, -, -, sized⟩ := read_sizes .new (.start : Course True s .empty [] [] s .empty) rfl
  exact ⟨rfl, by decide +kernel, most, sized⟩

end LogStream

end ChangeCapture
