import ChangeCapture.Proofs.Similarity

/-! What entries do to the file that they are in. Only change entries touch what is held or add
changes to the batch, only the footer ends the file and only an include entry opens another one. -/
namespace ChangeCapture

theorem bind_ok {x : Except Failure α} {f : α → Except Failure β} {b : β}
    (ok : (x >>= f) = .ok b) : ∃ a, x = .ok a ∧ f a = .ok b := by
  cases x with
  | error e => cases ok
  | ok a => exact ⟨a, rfl, ok⟩

theorem map_ok {x : Except Failure α} {f : α → β} {b : β} (ok : x.map f = .ok b) :
    ∃ a, x = .ok a ∧ f a = b := by
  cases x with
  | error e => cases ok
  | ok a => exact ⟨a, rfl, Except.ok.inj ok⟩

namespace Action

variable {σ α β γ : Type}

theorem bind_ok {x : Action σ α} {f : α → Action σ β} {s t : σ} {b : β}
    (ok : (x >>= f) s = (.ok b, t)) : ∃ a s', x s = (.ok a, s') ∧ f a s' = (.ok b, t) := by
  rw [bind_apply] at ok
  rcases hx : x s with ⟨f | a, s'⟩ <;> rw [hx] at ok
  · cases ok
  · exact ⟨a, s', rfl, ok⟩

theorem bind_run {x : Action σ α} {f : α → Action σ β} {s t : σ} {r : Except Failure β}
    (run : (x >>= f) s = (r, t)) : (∃ g, x s = (.error g, t) ∧ r = .error g) ∨
      ∃ a s', x s = (.ok a, s') ∧ f a s' = (r, t) := by
  rw [bind_apply] at run
  rcases hx : x s with ⟨g | a, s'⟩ <;> rw [hx] at run
  · cases run
    exact .inl ⟨g, rfl, rfl⟩
  · exact .inr ⟨a, s', rfl, run⟩

theorem ofExcept_run {x r : Except Failure α} {s t : σ}
    (run : (ofExcept x : Action σ α) s = (r, t)) : x = r ∧ t = s :=
  ⟨congrArg Prod.fst run, (congrArg Prod.snd run).symm⟩

/-- Leaves a part of the state as it was, also if it fails. -/
def Keeps (p : σ → γ) (x : Action σ α) : Prop := ∀ s, p (x s).2 = p s

namespace Keeps

variable {p : σ → γ}

theorem pure (a : α) : Keeps p (pure a : Action σ α) := fun _ => rfl

theorem ofExcept (x : Except Failure α) : Keeps p (ofExcept x) := fun _ => rfl

theorem modify {f : σ → σ} (keeps : ∀ s, p (f s) = p s) : Keeps p (modify f : Action σ PUnit) :=
  keeps

theorem read {f : σ → Action σ α} (rest : ∀ s, Keeps p (f s)) : Keeps p (get >>= f) :=
  fun s => rest s s

theorem bind {x : Action σ α} {f : α → Action σ β} (first : Keeps p x)
    (rest : ∀ a, Keeps p (f a)) : Keeps p (x >>= f) := by
  intro s
  have kept := first s
  rw [bind_apply]
  rcases hx : x s with ⟨f | a, s'⟩ <;> rw [hx] at kept
  · exact kept
  · exact (rest a s').trans kept

theorem eq {x : Action σ α} {s s' : σ} {r : Except Failure α} (keeps : Keeps p x)
    (done : x s = (r, s')) : p s' = p s := by
  rw [← keeps s, done]

theorem part {x : Action σ α} (q : γ → β) (keeps : Keeps p x) : Keeps (fun s => q (p s)) x :=
  fun s => congrArg q (keeps s)

end Keeps

end Action

namespace DomainRecord

def change? (r : DomainRecord) : Option Change :=
  match r.data with
  | .change change => some change
  | _ => none

/-- The changes among some records. -/
def changes (records : List DomainRecord) : List Change := records.filterMap change?

@[simp] theorem changes_nil : changes [] = [] := rfl

@[simp] theorem changes_append (records more : List DomainRecord) :
    changes (records ++ more) = changes records ++ changes more :=
  List.filterMap_append

end DomainRecord

namespace Desk

open ChangeCapture.Action DomainRecord

/-- What only the file itself and its changes have a say in. -/
structure Standing where
  phase : Phase
  parts : Parts
  changes : List Change

def standing (d : Desk) : Standing := ⟨d.state.phase, d.state.cache.parts, changes d.state.batch⟩

@[simp] theorem standing_say (d : Desk) (n : Notice) : (d.say n).standing = d.standing := rfl

@[simp] theorem standing_withCatalog (d : Desk) (c : Catalog) :
    (d.withCatalog c).standing = d.standing := rfl

theorem standing_addRecord (d : Desk) (r : DomainRecord) :
    (d.addRecord r).standing =
      ⟨d.state.phase, d.state.cache.parts, changes d.state.batch ++ r.change?.toList⟩ := by
  simp only [standing, addRecord, changes_append]
  congr 2

theorem standing_emit (gates : Gates) (d : Desk) {r : DomainRecord} (apart : r.change? = none) :
    (d.emit gates r).standing = d.standing := by
  have added (d : Desk) : (d.addRecord r).standing = d.standing := by
    rw [standing_addRecord, apart]
    simp [standing]
  unfold emit
  dsimp only
  split
  · split
    · exact added _
    · rfl
  · rfl

@[simp] theorem standing_withTransactions (gates : Gates) (d : Desk) (t : Transactions)
    (finished : Option TransactionSummary) :
    (d.withTransactions gates t finished).standing = d.standing := by
  cases finished with
  | none => rfl
  | some s => exact standing_emit gates _ rfl

variable (o : StreamOptions)

theorem parses_apply (input : GateInput) (d : Desk) :
    parses o input d = (.ok (o.gates .parse input), d.asked o.gates .parse input) := rfl

/-- A part of the desk that only records and the course of the file have a say in. -/
structure Calm (p : Desk → γ) : Prop where
  say : ∀ d n, p (d.say n) = p d
  catalog : ∀ d c, p (d.withCatalog c) = p d
  features : ∀ d features, p ⟨{ d.state with features }, d.journal⟩ = p d
  included : ∀ d includedRecords, p ⟨{ d.state with includedRecords }, d.journal⟩ = p d

namespace Calm

variable {o} {p : Desk → γ} (calm : Calm p)
include calm

theorem warn (d : Desk) (warnings : List Warning) : p (d.warn warnings) = p d := by
  induction warnings generalizing d with
  | nil => rfl
  | cons w warnings ih => exact (ih (d.say (.warning w))).trans (calm.say d _)

theorem settle (e : Entry) (announced : Nat) (d : Desk) : p (settle e announced d) = p d := by
  have settled := calm.included d none
  unfold Desk.settle
  dsimp only
  split
  · exact (calm.warn _ _).trans settled
  · split
    · exact (calm.warn _ _).trans settled
    · exact settled

theorem parses (input : GateInput) : Keeps p (parses o input) :=
  (Keeps.modify (calm.say · _)).bind fun _ => .pure _

theorem header (e : Entry) : Keeps p (header e) :=
  (Keeps.ofExcept _).bind fun _ => .modify fun d => calm.features d _

theorem assemble (e : Entry) (id : RecordId) : Keeps p (assemble o e id) :=
  .read fun _ => (Keeps.modify fun d => (calm.warn _ _).trans (calm.catalog d _)).bind fun _ =>
    .ofExcept _

theorem includeStats (e : Entry) : Keeps p (includeStats e) := by
  rw [includeStats_eq]
  refine (Keeps.ofExcept _).bind fun announced => ?_
  cases announced with
  | none => exact .pure _
  | some n => exact .modify fun d => calm.settle e n d

end Calm

/-- A part of the desk that only rows, summaries and the course of the file have a say in. -/
structure Quiet (p : Desk → γ) : Prop extends Calm p where
  document : ∀ d offset document, p (d.emit o.gates ⟨offset, .metadata document⟩) = p d

theorem Quiet.metadata {o : StreamOptions} {p : Desk → γ} (quiet : Quiet o p) (e : Entry)
    (offset : StreamOffset) : Keeps p (metadata o e offset) := by
  refine .read fun d => (Keeps.ofExcept _).bind fun _ => (quiet.parses _).bind fun passes => ?_
  cases passes with
  | false => exact .pure _
  | true =>
    refine (Keeps.ofExcept _).bind fun (catalog, document) =>
      (Keeps.modify (quiet.catalog · catalog)).bind fun _ => ?_
    cases document with
    | none => exact .pure _
    | some document => exact .modify fun d => quiet.document d offset document

theorem quiet_standing : Quiet o standing where
  say := standing_say
  catalog := standing_withCatalog
  features _ _ := rfl
  document d _ _ := standing_emit o.gates d rfl
  included _ _ := rfl

theorem keeps_observe (e : Entry) (n : Observation) : Keeps standing (observe o e n) :=
  .read fun d => (Keeps.ofExcept _).bind fun (t, finished) => .modify fun d => by simp

@[simp] theorem phase_emit (gates : Gates) (d : Desk) (r : DomainRecord) :
    (d.emit gates r).state.phase = d.state.phase := by
  unfold emit
  dsimp only
  split
  · split <;> rfl
  · rfl

/-- What no emission touches is touched by no release, except for what is held. -/
theorem release_keeps {p : Desk → γ} (gates : Gates) (keeps : ∀ d r, p (d.emit gates r) = p d)
    (d : Desk) :
    p (d.release gates) =
      p (d.withCache { d.state.cache with parts := d.state.cache.parts.release.1 }) := by
  have emitted (held : List HeldRecord) (d : Desk) :
      p (held.foldl (fun d h => d.emit gates ⟨h.offset, .change (.row h.record)⟩) d) = p d := by
    induction held generalizing d with
    | nil => rfl
    | cons h held ih => exact (ih _).trans (keeps d _)
  exact emitted _ _

@[simp] theorem phase_release (gates : Gates) (d : Desk) :
    (d.release gates).state.phase = d.state.phase :=
  release_keeps (p := fun d => d.state.phase) gates (phase_emit gates) d

/-- A part of the desk that neither records nor what is known have a say in. -/
structure Fixed (p : Desk → γ) : Prop extends Calm p where
  emit : ∀ d r, p (d.emit o.gates r) = p d
  cache : ∀ d c, p (d.withCache c) = p d
  summaries : ∀ d summaries, p ⟨d.state, { d.journal with summaries }⟩ = p d

namespace Fixed

variable {o} {p : Desk → γ} (fixed : Fixed o p)
include fixed

theorem quiet : Quiet o p := ⟨fixed.toCalm, fun d _ _ => fixed.emit d _⟩

theorem withTransactions (d : Desk) (t : Transactions) (finished : Option TransactionSummary) :
    p (d.withTransactions o.gates t finished) = p d := by
  cases finished with
  | none => exact (fixed.summaries _ _).trans (fixed.cache d _)
  | some s => exact (fixed.emit _ _).trans ((fixed.summaries _ _).trans (fixed.cache d _))

theorem observe (e : Entry) (n : Observation) : Keeps p (observe o e n) :=
  .read fun _ => (Keeps.ofExcept _).bind fun (t, finished) => .modify fun d =>
    fixed.withTransactions d t finished

theorem offer (offset : StreamOffset) (c : Change) : Keeps p (offer o offset c) := by
  unfold Desk.offer
  cases c with
  | vector => exact .pure _
  | row record =>
    dsimp only
    split
    · refine .read fun d => ?_
      exact (Keeps.modify (fixed.cache · _)).bind fun _ => (Keeps.ofExcept _).bind fun _ => .pure _
    · exact .pure _

theorem change (e : Entry) (id : RecordId) (offset : StreamOffset) :
    Keeps p (change o e id offset) := by
  refine .read fun d => ?_
  dsimp only
  split
  · exact fun _ => rfl
  refine (Keeps.ofExcept _).bind fun _ => (fixed.parses _).bind fun passes => ?_
  cases passes with
  | false => exact fixed.observe e _
  | true =>
    refine (fixed.assemble e id).bind fun c => (fixed.offer offset c).bind fun offered => ?_
    cases offered with
    | fragment => exact .pure _
    | held => exact fixed.observe e _
    | emitted c => exact (fixed.observe e _).bind fun _ => .modify fun d => fixed.emit d _

end Fixed

theorem fixed_phase : Fixed o (fun d => d.state.phase) where
  say _ _ := rfl
  catalog _ _ := rfl
  features _ _ := rfl
  included _ _ := rfl
  emit := phase_emit o.gates
  cache _ _ := rfl
  summaries _ _ := rfl

/-- The number that the next entry gets. -/
def nextId (d : Desk) : RecordId := ⟨d.state.file.sequence, d.state.counted.entrySeq⟩

/-- The offset that the records of an entry are reported at. -/
def reported (d : Desk) (e : Entry) : StreamOffset :=
  d.state.reportAt.getD ⟨d.state.file.uid, e.offset⟩

/-- The desk as an entry of some kind finds it: rows are let go unless it may complete them. -/
def cleared (e : Entry) (d : Desk) : Desk :=
  if e.kind ≠ .lobWrite then d.counted.release o.gates else d.counted

theorem process_apply (e : Entry) (d : Desk) :
    process o e d = perform o e d.nextId (d.reported e) (d.cleared o e) := by
  rw [process_eq]
  show ((if e.kind ≠ .lobWrite then modify (release o.gates) else pure ()) >>= fun _ =>
    perform o e d.nextId (d.reported e)) _ = _
  unfold cleared
  split <;> rfl

theorem cleared_keeps {p : Desk → γ} (emits : ∀ d r, p (d.emit o.gates r) = p d)
    (holds : ∀ d parts, p (d.withCache { d.state.cache with parts }) = p d)
    (counts : ∀ d n, p { d with state := { d.state with entrySeq := n } } = p d)
    (e : Entry) (d : Desk) : p (d.cleared o e) = p d := by
  unfold cleared
  split
  · rw [release_keeps o.gates emits, holds]
    exact counts d _
  · exact counts d _

@[simp] theorem phase_cleared (e : Entry) (d : Desk) :
    (d.cleared o e).state.phase = d.state.phase :=
  cleared_keeps o (p := fun d => d.state.phase) (phase_emit o.gates) (fun _ _ => rfl)
    (fun _ _ => rfl) e d

theorem opens_nothing {x : Action Desk Unit} {d : Desk} {opened : Option Included}
    (done : ((x >>= fun _ => pure none : Action Desk (Option Included)) d).1 = .ok opened) :
    opened = none := by
  rw [bind_apply] at done
  rcases hx : x d with ⟨f | _, d'⟩ <;> rw [hx] at done <;> cases done
  rfl

theorem perform_change {e : Entry} (row : e.kind.isChange) (id : RecordId) (offset : StreamOffset) :
    perform o e id offset = (change o e id offset >>= fun _ => pure none) := by
  unfold perform
  split <;> first | rfl | simp_all [EntryKind.isChange, EntryKind.isDataBearing]

theorem perform_footer {e : Entry} (footer : e.kind = .footer) (id : RecordId)
    (offset : StreamOffset) (d : Desk) :
    perform o e id offset d = (.ok none, { d with state := { d.state with phase := .done } }) := by
  unfold perform
  rw [footer]
  rfl

theorem perform_header {e : Entry} (header_ : e.kind = .header) (id : RecordId)
    (offset : StreamOffset) : perform o e id offset = (header e >>= fun _ => pure none) := by
  rw [perform, header_]

theorem perform_commit {e : Entry} (commit : e.kind = .commit) (id : RecordId)
    (offset : StreamOffset) (d : Desk) :
    perform o e id offset d =
      (observe o e ⟨d.state.file.uid, id, offset, none⟩ >>= fun _ => pure none) d := by
  rw [perform, commit]
  rfl

theorem perform_includeStats {e : Entry} (stats : e.kind = .includeStats) (id : RecordId)
    (offset : StreamOffset) : perform o e id offset = (includeStats e >>= fun _ => pure none) := by
  rw [perform, stats]

theorem perform_unknown {e : Entry} (unknown : e.kind = .unknown) (id : RecordId)
    (offset : StreamOffset) :
    perform o e id offset = (modify (fun d : Desk => d.warn
      [.unknownEntry e.major.toNat e.subtype.toNat e.offset d.state.file]) >>=
        fun _ => pure none) := by
  rw [perform, unknown]

theorem includeFile_apply (e : Entry) (offset : StreamOffset) (d : Desk) :
    includeFile o e offset d = match includedFile o d.state e offset with
      | .ok i => (.ok i, d.pause)
      | .error f => (.error f, d) := by
  show (Action.ofExcept (includedFile o d.state e offset) >>= fun i =>
    modify pause >>= fun _ => pure i : Action Desk Included) d = _
  rw [bind_apply]
  cases includedFile o d.state e offset <;> rfl

theorem perform_includeFile {e : Entry} (include_ : e.kind = .includeFile) (id : RecordId)
    (offset : StreamOffset) (d : Desk) :
    perform o e id offset d = match includedFile o d.state e offset with
      | .ok i => (.ok (some i), d.pause)
      | .error f => (.error f, d) := by
  unfold perform
  rw [include_]
  show (includeFile o e offset >>= fun i => pure (some i)) d = _
  rw [bind_apply]
  rw [includeFile_apply]
  cases includedFile o d.state e offset <;> rfl

theorem perform_other {e : Entry} (row : e.kind.isChange = false) (footer : e.kind ≠ .footer)
    (include_ : e.kind ≠ .includeFile) (id : RecordId) (offset : StreamOffset) :
    ∃ x : Action Desk Unit,
      perform o e id offset = (x >>= fun _ => pure none) ∧ Keeps standing x := by
  unfold perform
  split
  · exact ⟨_, rfl, .modify fun d => (quiet_standing o).warn d _⟩
  · exact ⟨_, rfl, (quiet_standing o).header e⟩
  · contradiction
  · exact ⟨_, rfl, (quiet_standing o).metadata e offset⟩
  · refine ⟨get >>= fun d => observe o e ⟨d.state.file.uid, id, offset, none⟩, rfl, ?_⟩
    exact .read fun d => keeps_observe o e _
  · contradiction
  · exact ⟨_, rfl, (quiet_standing o).includeStats e⟩
  · cases kind : e.kind <;> simp_all [EntryKind.isChange, EntryKind.isDataBearing]

/-- An included file as it starts out. -/
structure Fresh (parent : FileState) (i : Included) : Prop where
  exhausted : i.exhausted = false
  delivered : i.delivered = 0
  phase : i.state.phase = .headerRead
  batch : i.state.batch = []
  cache : i.state.cache = parent.cache

theorem fresh_includedFile {parent : FileState} {e : Entry} {offset : StreamOffset} {i : Included}
    (opened : includedFile o parent e offset = .ok i) : Fresh parent i := by
  unfold includedFile at opened
  obtain ⟨fileId, _, opened⟩ := bind_ok opened
  obtain ⟨name, _, opened⟩ := bind_ok opened
  obtain ⟨start, _, opened⟩ := bind_ok opened
  dsimp only at opened
  split at opened
  · cases opened
  · obtain ⟨source, _, opened⟩ := bind_ok opened
    split at opened <;> cases opened
    exact ⟨rfl, rfl, rfl, rfl, rfl⟩

theorem keeps_phase_perform {e : Entry} (footer : e.kind ≠ .footer) (include_ : e.kind ≠ .includeFile)
    (id : RecordId) (offset : StreamOffset) :
    Keeps (fun d => d.state.phase) (perform o e id offset) := by
  cases row : e.kind.isChange with
  | true =>
    rw [perform_change o row]
    exact ((fixed_phase o).change e id offset).bind fun _ => .pure _
  | false =>
    obtain ⟨x, performed, keeps⟩ := perform_other o row footer include_ id offset
    rw [performed]
    exact (keeps.part Standing.phase).bind fun _ => .pure _

theorem perform_opens_nothing {e : Entry} (footer : e.kind ≠ .footer)
    (include_ : e.kind ≠ .includeFile) {id : RecordId} {offset : StreamOffset} {d : Desk}
    {opened : Option Included} (done : (perform o e id offset d).1 = .ok opened) : opened = none := by
  cases row : e.kind.isChange with
  | true =>
    rw [perform_change o row] at done
    exact opens_nothing done
  | false =>
    obtain ⟨x, performed, -⟩ := perform_other o row footer include_ id offset
    rw [performed] at done
    exact opens_nothing done

/-- An entry opens another file, ends its own, or leaves it open. -/
theorem process_phase {e : Entry} {d d' : Desk} {opened : Option Included}
    (reading : d.state.phase = .reading) (done : process o e d = (.ok opened, d')) :
    (opened = none ∧ (d'.state.phase = .reading ∨ d'.state.phase = .done)) ∨
    (∃ i, opened = some i ∧ d'.state.phase = .paused ∧ Fresh d'.state i) := by
  rw [← phase_cleared o e] at reading
  rw [process_apply] at done
  generalize d.cleared o e = d, d.nextId = id, d.reported e = offset at reading done ⊢
  by_cases include_ : e.kind = .includeFile
  · rw [perform_includeFile o include_] at done
    split at done <;> cases done
    next i opened =>
      obtain ⟨exhausted, delivered, phase, batch, cache⟩ := fresh_includedFile o opened
      exact .inr ⟨i, rfl, rfl, exhausted, delivered, phase, batch, cache⟩
  by_cases footer : e.kind = .footer
  · rw [perform_footer o footer] at done
    cases done
    exact .inl ⟨rfl, .inr rfl⟩
  have kept := (keeps_phase_perform o footer include_ id offset).eq done
  exact .inl ⟨perform_opens_nothing o footer include_ (congrArg Prod.fst done),
    .inl (kept.trans reading)⟩

theorem process_failed_phase {e : Entry} {d d' : Desk} {f : Failure}
    (failed : process o e d = (.error f, d')) : d'.state.phase = d.state.phase := by
  rw [process_apply] at failed
  by_cases include_ : e.kind = .includeFile
  · rw [perform_includeFile o include_] at failed
    split at failed <;> cases failed
    exact phase_cleared o e d
  by_cases footer : e.kind = .footer
  · rw [perform_footer o footer] at failed
    cases failed
  exact ((keeps_phase_perform o footer include_ _ _).eq failed).trans (phase_cleared o e d)

end Desk

end ChangeCapture
