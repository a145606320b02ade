import ChangeCapture.Proofs.Decoding

/-! The persist and filter gates select. A reading under some gates processes the same entries with
the same result as a reading under gates that accept every record, and delivers those of its records
that both gates accept. -/
namespace ChangeCapture

namespace StreamOptions

/-- Whether a record passes both gates. -/
def delivers (o : StreamOptions) (r : DomainRecord) : Bool :=
  o.gates .persist (.ofRecord r) && o.gates .filter (.ofRecord r)

/-- Every record passes both gates. -/
def Delivering (o : StreamOptions) : Prop :=
  ∀ input, o.gates .persist input = true ∧ o.gates .filter input = true

/-- Options that differ in nothing but the size of a batch and the gates for records. -/
structure Decodes (o o' : StreamOptions) : Prop where
  view : o.config.view = o'.config.view
  mergeMultipart : o.config.mergeMultipart = o'.config.mergeMultipart
  requireFeatures : o.config.requireFeatures = o'.config.requireFeatures
  parse : o.gates .parse = o'.gates .parse
  includes : o.includes = o'.includes

end StreamOptions

namespace Desk

/-- One batch is a selection of the other. -/
structure Selected (o : StreamOptions) (d d' : Desk) : Prop where
  core : d.core = d'.core
  batch : d.state.batch = d'.state.batch.filter o.delivers

theorem state_emit (o : StreamOptions) (d : Desk) (r : DomainRecord) :
    (d.emit o.gates r).state =
      { d.state with batch := d.state.batch ++ [r].filter o.delivers } := by
  unfold emit StreamOptions.delivers
  dsimp only
  cases persist : o.gates .persist (.ofRecord r) with
  | false => simp [persist, asked, say]
  | true =>
    cases filter : o.gates .filter (.ofRecord r) <;>
      simp [persist, filter, asked, say, addRecord]

theorem batch_emit (o : StreamOptions) (d : Desk) (r : DomainRecord) :
    (d.emit o.gates r).state.batch = d.state.batch ++ [r].filter o.delivers :=
  congrArg FileState.batch (state_emit o d r)

theorem core_emit (gates : Gates) (d : Desk) (r : DomainRecord) :
    (d.emit gates r).core = d.core := by
  unfold emit
  dsimp only
  split
  · split <;> rfl
  · rfl

theorem core_settle (e : Entry) (announced : Nat) (d : Desk) :
    (settle e announced d).core = d.core := by
  unfold settle
  dsimp only
  split
  · rfl
  · split <;> rfl

theorem batch_settle (e : Entry) (announced : Nat) (d : Desk) :
    (settle e announced d).state.batch = d.state.batch := by
  unfold settle
  dsimp only
  split
  · rfl
  · split <;> rfl

theorem congruence_selected {o o' : StreamOptions} (alike : o.Decodes o') (all : o'.Delivering) :
    Congruence o o' (Selected o) where
  view := alike.view
  mergeMultipart := alike.mergeMultipart
  requireFeatures := alike.requireFeatures
  parse := alike.parse
  includes := alike.includes
  core := Selected.core
  onto _ related := ⟨rfl, related.batch⟩
  say _ related := ⟨related.core, related.batch⟩
  emit r related := by
    refine ⟨by rw [core_emit, core_emit, related.core], ?_⟩
    have accepted : o'.delivers r = true := by simpa [StreamOptions.delivers] using all _
    rw [batch_emit, batch_emit, related.batch, List.filter_append,
      List.filter_cons_of_pos accepted, List.filter_nil]
  settle e announced related := by
    refine ⟨by rw [core_settle, core_settle, related.core], ?_⟩
    rw [batch_settle, batch_settle, related.batch]
  pause {d d'} related := by
    have same : d.pause.core = d.core.pause.core := rfl
    refine ⟨?_, related.batch⟩
    rw [same, related.core]
    rfl

end Desk

/-- What a file goes on with, whatever becomes of its records. -/
def FileState.core (f : FileState) : FileState := { f with batch := [], includedRecords := none }

def Included.core (i : Included) : Included := { i with state := i.state.core, delivered := 0 }

namespace Session

def core (s : Session) : Session :=
  ⟨⟨s.reader, s.state.core⟩, s.included.map Included.core, ⟨s.journal.summaries, []⟩⟩

theorem core_inner (s : Session) (i : Included) (deeper : List Included) :
    (s.inner i deeper).core = s.core.inner i.core (deeper.map Included.core) := rfl

theorem core_outer (s : Session) (i : Included) (t : Session) :
    (s.outer i t).core = s.core.outer i.core t.core := rfl

theorem core_resume (s : Session) (i : Included) :
    (s.resume i).core = (s.core.resume i.core).core := rfl

theorem core_readOn (o : StreamOptions) (i : Included) (x : Outcome) :
    (i.readOn o x).core = { i.core with toOpenFile := x.session.core.toOpenFile } := rfl

theorem core_bare (s : Session) : s.bare.core = s.core := by
  have same (included : List Included) :
      (Included.bare included).map Included.core = included.map Included.core := by
    induction included with
    | nil => rfl
    | cons i deeper ih => simp [Included.bare, ih, Included.core, Included.emptied, FileState.core]
  simp [core, bare, same, FileState.core]

theorem core_afterEntry (s : Session) (reader : ChunkReader) (d : Desk) (opened : Option Included) :
    (s.afterEntry reader d opened).core =
      ⟨⟨reader, d.core.state⟩, opened.toList.map Included.core, d.core.journal⟩ := rfl

theorem core_processing (s : Session) (e : Entry) :
    (s.processing e).desk.core = ((s.core.processing e).desk).core := rfl

/-- Turns that lead to sessions which go on alike. -/
inductive Turn.Alike : Turn → Turn → Prop where
  | again {s s'} : s.core = s'.core → Turn.Alike (.again s) (.again s')
  | stop {result s s'} : s.core = s'.core → Turn.Alike (.stop result s) (.stop result s')

end Session

/-- A reading that delivers a selection of the records of another. -/
structure Outcome.Selects (o o' : StreamOptions) (x x' : Outcome) : Prop where
  result : x.result = x'.result
  records : x.records o = (x'.records o').filter o.delivers
  core : x.session.core = x'.session.core

namespace Session

variable {o o' : StreamOptions}

theorem processed_selects (alike : o.Decodes o') (all : o'.Delivering) {s s' : Session}
    (same : s.core = s'.core) (e : Entry) :
    (s.processing e).result o = (s'.processing e).result o' ∧
      Desk.Selected o ((s.processing e).after o) ((s'.processing e).after o') := by
  refine (Desk.congruence_selected alike all).process e _ _ ⟨?_, rfl⟩
  rw [core_processing s, same, ← core_processing]

theorem entry_selects (alike : o.Decodes o') (all : o'.Delivering) {s s' : Session}
    {inner inner' : Session → Outcome} (same : s.core = s'.core)
    (reads : s.state.phase.readsEntries) :
    Processed.allRecords o (s.turnWhole o inner).1 =
        (Processed.allRecords o' (s'.turnWhole o' inner').1).filter o.delivers ∧
      Turn.Alike (s.turnWhole o inner).2 (s'.turnWhole o' inner').2 := by
  have reader : s.reader = s'.reader := congrArg (fun c => c.reader) same
  have phase : s.state.phase = s'.state.phase := congrArg (fun c => c.state.phase) same
  rw [turnWhole_reads reads, turnWhole_reads (phase ▸ reads), reader]
  rcases ChunkReader.next s'.reader with ⟨f | e, reader⟩
  · exact ⟨rfl, .stop (congrArg (fun c : Session => { c with reader }) same)⟩
  · obtain ⟨result, core, batch⟩ := processed_selects alike all same e
    have after (opened : Option Included) :
        (s.afterEntry reader ((s.processing e).after o) opened).bare.core =
          (s'.afterEntry reader ((s'.processing e).after o') opened).bare.core := by
      rw [core_bare, core_bare, core_afterEntry, core_afterEntry, core]
    have records : Processed.allRecords o [s.processing e] =
        (Processed.allRecords o' [s'.processing e]).filter o.delivers := by
      rw [Processed.allRecords_singleton, Processed.allRecords_singleton]
      exact batch
    dsimp only
    rw [result]
    cases (s'.processing e).result o' with
    | error f => exact ⟨records, .stop (after none)⟩
    | ok opened => exact ⟨records, .again (after opened)⟩

theorem resume_selects {s s' : Session} {i i' : Included} (same : s.core = s'.core)
    (head : i.core = i'.core) : (s.resume i).core = (s'.resume i').core := by
  rw [core_resume s, same, head, ← core_resume]

theorem included_selects {inner inner' : Session → Outcome} {s s' : Session} {i i' : Included}
    {deeper deeper' : List Included}
    (selects : ∀ {s s'}, s.core = s'.core → (inner s).Selects o o' (inner' s'))
    (same : s.core = s'.core) (head : i.core = i'.core)
    (rest : deeper.map Included.core = deeper'.map Included.core)
    (paused : s.state.phase = .paused) (paused' : s'.state.phase = .paused)
    (open_ : s.included = i :: deeper) (open' : s'.included = i' :: deeper')
    (running : i.exhausted = false) (running' : i'.exhausted = false) :
    Processed.allRecords o (s.turnWhole o inner).1 =
        (Processed.allRecords o' (s'.turnWhole o' inner').1).filter o.delivers ∧
      Turn.Alike (s.turnWhole o inner).2 (s'.turnWhole o' inner').2 := by
  rw [turnWhole_included paused open_ running, turnWhole_included paused' open' running']
  have inners : (s.inner i deeper).core = (s'.inner i' deeper').core := by
    rw [core_inner, core_inner, same, head, rest]
  obtain ⟨result, records, core⟩ := selects inners
  have read : (i.readOn o (inner (s.inner i deeper))).core =
      (i'.readOn o' (inner' (s'.inner i' deeper'))).core := by
    rw [core_readOn, core_readOn, head, core]
  have outers : (s.outer (i.readOn o (inner (s.inner i deeper)))
        (inner (s.inner i deeper)).session).core =
      (s'.outer (i'.readOn o' (inner' (s'.inner i' deeper')))
        (inner' (s'.inner i' deeper')).session).core := by
    rw [core_outer, core_outer, same, read, core]
  have clean : (inner (s.inner i deeper)).isClean =
      (inner' (s'.inner i' deeper')).isClean := by
    rw [Outcome.isClean, result, ← Outcome.isClean]
  dsimp only
  rw [clean]
  split
  · exact ⟨records, .again (resume_selects outers read)⟩
  · rw [result]
    exact ⟨records, .stop outers⟩

theorem turnWhole_selects (alike : o.Decodes o') (all : o'.Delivering)
    {inner inner' : Session → Outcome}
    (selects : ∀ {s s'}, s.core = s'.core → (inner s).Selects o o' (inner' s'))
    {s s' : Session} (same : s.core = s'.core) (opened : s.state.phase ≠ .unopened) :
    Processed.allRecords o (s.turnWhole o inner).1 =
        (Processed.allRecords o' (s'.turnWhole o' inner').1).filter o.delivers ∧
      Turn.Alike (s.turnWhole o inner).2 (s'.turnWhole o' inner').2 := by
  have phase : s.state.phase = s'.state.phase := congrArg (fun c => c.state.phase) same
  have included : s.included.map Included.core = s'.included.map Included.core :=
    congrArg (fun c => c.included) same
  cases now : s.state.phase with
  | unopened => exact absurd now opened
  | headerRead => exact entry_selects alike all same (by rw [now]; rfl)
  | reading => exact entry_selects alike all same (by rw [now]; rfl)
  | done =>
    rw [now] at phase
    simp only [turnWhole, now, ← phase]
    exact ⟨rfl, .stop same⟩
  | paused =>
    rw [now] at phase
    cases open_ : s.included with
    | nil =>
      rw [open_] at included
      have open' : s'.included = [] := List.map_eq_nil_iff.mp included.symm
      simp only [turnWhole, now, ← phase, open_, open']
      exact ⟨rfl, .again (congrArg
        (fun c : Session => { c with state := { c.state with phase := .reading }, included := [] })
        same)⟩
    | cons i deeper =>
      rw [open_] at included
      obtain ⟨i', deeper', open', head, rest⟩ := List.map_eq_cons_iff.mp included.symm
      have exhausted : i.exhausted = i'.exhausted := congrArg (fun i => i.exhausted) head.symm
      cases ended : i.exhausted with
      | true =>
        rw [turnWhole_exhausted now open_ ended,
          turnWhole_exhausted phase.symm open' (exhausted ▸ ended)]
        exact ⟨rfl, .again (resume_selects same head.symm)⟩
      | false =>
        exact included_selects selects same head.symm rest.symm now phase.symm open_ open' ended
          (exhausted ▸ ended)

theorem turnWhole_opened {inner : Session → Outcome} {s t : Session} {ps : List Processed}
    (again : s.turnWhole o inner = (ps, .again t)) : t.state.phase ≠ .unopened := by
  unfold turnWhole at again
  split at again
  · cases again
  · split at again
    · cases again
      nofun
    · dsimp only at again
      split at again
      · cases again
        nofun
      · split at again <;> cases again
        nofun
  · split at again
    · cases again
    · dsimp only at again
      split at again <;> cases again
      next done => exact Processed.opened_after o _ rfl done

theorem whole_selects (alike : o.Decodes o') (all : o'.Delivering)
    {inner inner' : Session → Outcome}
    (selects : ∀ {s s'}, s.core = s'.core → (inner s).Selects o o' (inner' s'))
    {s s' : Session} (same : s.core = s'.core) (opened : s.state.phase ≠ .unopened) :
    (whole o inner s).Selects o o' (whole o' inner' s') := by
  induction s using whole.induct o inner generalizing s' with
  | case1 s ps result t stops =>
    obtain ⟨records, turns⟩ := turnWhole_selects alike all selects same opened
    rw [stops] at records turns
    rcases stops' : s'.turnWhole o' inner' with ⟨ps', turn'⟩
    rw [stops'] at records turns
    cases turns with
    | stop core =>
      rw [whole_stop stops, whole_stop stops']
      exact ⟨rfl, records, core⟩
  | case2 s ps t again ih =>
    obtain ⟨records, turns⟩ := turnWhole_selects alike all selects same opened
    rw [again] at records turns
    rcases again' : s'.turnWhole o' inner' with ⟨ps', turn'⟩
    rw [again'] at records turns
    cases turns with
    | again core =>
      obtain ⟨result, more, last⟩ := ih core (turnWhole_opened again)
      rw [whole_again again, whole_again again']
      refine ⟨result, ?_, last⟩
      simp only [Outcome.records, Outcome.after, Processed.allRecords_append, List.filter_append]
      have first : Processed.allRecords o ps =
          (Processed.allRecords o' ps').filter o.delivers := records
      have rest : Processed.allRecords o (whole o inner t).processed =
          (Processed.allRecords o' _).filter o.delivers := more
      rw [first, rest]

theorem decodeWith_selects (alike : o.Decodes o') (all : o'.Delivering)
    {inner inner' : Session → Outcome}
    (selects : ∀ {s s'}, s.core = s'.core → (inner s).Selects o o' (inner' s'))
    {s s' : Session} (same : s.core = s'.core) :
    (decodeWith o inner s).Selects o o' (decodeWith o' inner' s') := by
  have reader : s.reader = s'.reader := congrArg (fun c => c.reader) same
  have phase : s.state.phase = s'.state.phase := congrArg (fun c => c.state.phase) same
  unfold decodeWith
  by_cases unopened : s.state.phase = .unopened
  · rw [if_pos unopened, if_pos (phase ▸ unopened), reader]
    rcases ChunkReader.fileHeader s'.reader with ⟨f | h, reader⟩
    · exact ⟨rfl, rfl, congrArg (fun c : Session => { c with reader }) same⟩
    · refine whole_selects alike all selects ?_ nofun
      exact congrArg
        (fun c : Session => { c with reader, state := { c.state with phase := .headerRead } }) same
  · rw [if_neg unopened, if_neg (phase ▸ unopened)]
    exact whole_selects alike all selects same unopened

/-- Gates for records only select among the records that accepting gates let pass. -/
theorem decode_selects (alike : o.Decodes o') (all : o'.Delivering) (depth : Nat) {s s' : Session}
    (same : s.core = s'.core) : (decode o depth s).Selects o o' (decode o' depth s') := by
  induction depth generalizing s s' with
  | zero =>
    refine decodeWith_selects alike all (fun {s s'} same => ?_) same
    have name : s.state.file.name = s'.state.file.name :=
      congrArg (fun c => c.state.file.name) same
    exact ⟨by rw [refuse, refuse, name], rfl, same⟩
  | succ depth ih => exact decodeWith_selects alike all (fun same => ih same) same

end Session

end ChangeCapture
