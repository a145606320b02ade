import ChangeCapture.LogStream
import ChangeCapture.Proofs.Effects
import ChangeCapture.Proofs.Fatal

/-! Sessions step by step. A step reads a file header, processes an entry of the file that is read
at the time, or hands records of an included file on; filling a batch is a path of such steps, however
deep files include each other, and it ends in a failing step if it fails. -/
namespace ChangeCapture

/-- An entry that is processed, and the desk that it is processed on: that of its own file, with an
empty batch. -/
structure Processed where
  entry : Entry
  desk : Desk

namespace Processed

variable (o : StreamOptions) (p : Processed)

def result : Except Failure (Option Included) := (Desk.process o p.entry p.desk).1

def after : Desk := (Desk.process o p.entry p.desk).2

/-- The records that leave the entry. -/
def records : List DomainRecord := (p.after o).state.batch

/-- The records that leave some entries. -/
def allRecords (ps : List Processed) : List DomainRecord := ps.flatMap (records o)

@[simp] theorem allRecords_nil : allRecords o [] = [] := rfl

@[simp] theorem allRecords_append (ps qs : List Processed) :
    allRecords o (ps ++ qs) = allRecords o ps ++ allRecords o qs := List.flatMap_append

@[simp] theorem allRecords_singleton : allRecords o [p] = p.records o := List.flatMap_singleton ..

theorem phase_after {opened : Option Included} (reading : p.desk.state.phase = .reading)
    (done : p.result o = .ok opened) :
    (opened = none ∧ ((p.after o).state.phase = .reading ∨ (p.after o).state.phase = .done)) ∨
    (∃ i, opened = some i ∧ (p.after o).state.phase = .paused ∧
      Desk.Fresh (p.after o).state i) :=
  Desk.process_phase o reading (Prod.ext done rfl)

theorem paused_after {i : Included} (reading : p.desk.state.phase = .reading)
    (done : p.result o = .ok (some i)) :
    (p.after o).state.phase = .paused ∧ Desk.Fresh (p.after o).state i := by
  obtain ⟨same, -⟩ | ⟨_, same, paused, fresh⟩ := p.phase_after o reading done <;> cases same
  exact ⟨paused, fresh⟩

theorem opened_after {opened : Option Included} (reading : p.desk.state.phase = .reading)
    (done : p.result o = .ok opened) : (p.after o).state.phase ≠ .unopened := by
  rcases p.phase_after o reading done with ⟨_, phase | phase⟩ | ⟨_, _, phase, _⟩ <;> rw [phase] <;>
    decide

theorem failed_after {f : Failure} (reading : p.desk.state.phase = .reading)
    (failed : p.result o = .error f) : (p.after o).state.phase = .reading :=
  (Desk.process_failed_phase o (Prod.ext failed rfl)).trans reading

end Processed

/-- Whether the next thing to be read is an entry of the file itself. -/
def Phase.readsEntries (p : Phase) : Bool := p = .headerRead || p = .reading

/-- A file is paused while the files that it includes are open, and the last of those is not. -/
def Nested : Phase → List Included → Prop
  | phase, [] => phase ≠ .paused
  | phase, i :: deeper =>
    phase = .paused ∧ (i.exhausted → deeper = []) ∧ Nested i.state.phase deeper

namespace Session

def WellNested (s : Session) : Prop := Nested s.state.phase s.included

def processing (s : Session) (e : Entry) : Processed :=
  ⟨e, ⟨{ s.state with phase := .reading, batch := [] }, s.journal⟩⟩

/-- The session after an entry, whose records go to the end of the batch. -/
def afterEntry (s : Session) (reader : ChunkReader) (d : Desk) (opened : Option Included) :
    Session where
  reader
  state := { d.state with batch := s.state.batch ++ d.state.batch }
  included := opened.toList
  journal := d.journal

/-- The session of an included file. -/
def inner (s : Session) (i : Included) (deeper : List Included) : Session :=
  ⟨i.toOpenFile, deeper, s.journal⟩

/-- The session once its included file has got on. -/
def outer (s : Session) (i : Included) (t : Session) : Session :=
  { s with included := { i with toOpenFile := t.toOpenFile } :: t.included, journal := t.journal }

/-- One step, where files are included up to `depth` deep. -/
inductive Step (o : StreamOptions) : Nat → Session → List Processed → Session → Prop where
  | header {depth s header reader} :
      s.state.phase = .unopened → ChunkReader.fileHeader s.reader = (.ok header, reader) →
      Step o depth s [] { s with reader, state := { s.state with phase := .headerRead } }
  | entry {depth s e reader opened} :
      s.state.phase.readsEntries → ChunkReader.next s.reader = (.ok e, reader) →
      (s.processing e).result o = .ok opened →
      Step o depth s [s.processing e] (s.afterEntry reader ((s.processing e).after o) opened)
  | included {depth s i deeper ps t} :
      s.included = i :: deeper → i.exhausted = false → Step o depth (s.inner i deeper) ps t →
      Step o (depth + 1) s ps (s.outer i t)
  /-- The footer of the included file was processed. -/
  | footer {depth s i} :
      s.included = [i] → i.exhausted = false → i.state.phase = .done →
      Step o (depth + 1) s [] { s with included := [{ i with exhausted := true }] }
  /-- The included file ends without a footer. -/
  | close {depth s i reader} :
      s.included = [i] → i.exhausted = false → i.state.phase.readsEntries →
      ChunkReader.next i.reader = (.error .streamClosed, reader) →
      Step o (depth + 1) s [] { s with included := [{ i with reader, exhausted := true }] }
  | handOn {depth s i deeper} (count : Nat) :
      s.included = i :: deeper →
      Step o depth s []
        { s.addRecords (i.state.batch.take count) with included := i.handOn count :: deeper }
  | resume {depth s i} :
      s.included = [i] → i.isFinished → Step o depth s [] (s.resume i)

/-- A step that fails, and what it leaves behind. -/
inductive Fails (o : StreamOptions) : Nat → Session → List Processed → Failure → Session → Prop where
  | header {depth s f reader} :
      s.state.phase = .unopened → ChunkReader.fileHeader s.reader = (.error f, reader) →
      Fails o depth s [] f { s with reader }
  | next {depth s f reader} :
      s.state.phase.readsEntries → ChunkReader.next s.reader = (.error f, reader) →
      Fails o depth s [] f { s with reader }
  | entry {depth s e reader f} :
      s.state.phase.readsEntries → ChunkReader.next s.reader = (.ok e, reader) →
      (s.processing e).result o = .error f →
      Fails o depth s [s.processing e] f (s.afterEntry reader ((s.processing e).after o) none)
  | tooDeep {s i deeper} :
      s.included = i :: deeper → i.exhausted = false →
      Fails o 0 s [] (.includedTooDeep i.state.file.name) s
  | included {depth s i deeper ps f t} :
      s.included = i :: deeper → i.exhausted = false → f ≠ .streamClosed →
      Fails o depth (s.inner i deeper) ps f t → Fails o (depth + 1) s ps f (s.outer i t)

/-- Steps in a row, with the entries that they process. -/
inductive Path (o : StreamOptions) (depth : Nat) : Session → List Processed → Session → Prop where
  | nil {s} : Path o depth s [] s
  | cons {s ps m qs t} : Step o depth s ps m → Path o depth m qs t → Path o depth s (ps ++ qs) t

variable {o : StreamOptions} {depth : Nat}

theorem Path.single {s t : Session} {ps : List Processed} (step : Step o depth s ps t) :
    Path o depth s ps t := by
  simpa using Path.cons step .nil

theorem Path.trans {s m t : Session} {ps qs : List Processed} (first : Path o depth s ps m)
    (rest : Path o depth m qs t) : Path o depth s (ps ++ qs) t := by
  induction first with
  | nil => exact rest
  | cons step _ ih => exact (List.append_assoc ..).symm ▸ .cons step (ih rest)

theorem Path.snoc {s m t : Session} {ps : List Processed} (path : Path o depth s ps m)
    (step : Step o depth m [] t) : Path o depth s ps t := by
  simpa using path.trans (.single step)

theorem WellNested.of_included {s : Session} {i : Included} {deeper : List Included}
    (nested : s.WellNested) (open_ : s.included = i :: deeper) :
    s.state.phase = .paused ∧ (i.exhausted → deeper = []) ∧ Nested i.state.phase deeper := by
  unfold WellNested at nested
  rwa [open_] at nested

theorem WellNested.included_nil {s : Session} (nested : s.WellNested)
    (reading : s.state.phase ≠ .paused) : s.included = [] := by
  cases open_ : s.included with
  | nil => rfl
  | cons i deeper => exact absurd (nested.of_included open_).1 reading

theorem WellNested.alone_of_reads {s : Session} (nested : s.WellNested)
    (reads : s.state.phase.readsEntries) : s.included = [] := by
  refine nested.included_nil fun paused => ?_
  rw [paused] at reads
  exact absurd reads (by decide)

theorem WellNested.paused_of_included {s : Session} (nested : s.WellNested) :
    s.state.phase = .paused ↔ s.included ≠ [] := by
  cases open_ : s.included with
  | nil =>
    unfold WellNested at nested
    rw [open_] at nested
    simpa [Nested] using nested
  | cons i deeper => simp [(nested.of_included open_).1]

theorem Step.wellNested {s t : Session} {ps : List Processed} (step : Step o depth s ps t)
    (nested : s.WellNested) : t.WellNested := by
  induction step with
  | header unopened _ =>
    have alone := nested.included_nil (by rw [unopened]; nofun)
    simp [WellNested, alone, Nested]
  | entry _ _ done =>
    rcases Processed.phase_after o _ rfl done with ⟨rfl, phase | phase⟩ | ⟨i, rfl, paused, fresh⟩
    · show (Processed.after o _).state.phase ≠ .paused
      rw [phase]
      nofun
    · show (Processed.after o _).state.phase ≠ .paused
      rw [phase]
      nofun
    · exact ⟨paused, by rw [fresh.exhausted]; nofun, by rw [fresh.phase]; nofun⟩
  | included open_ running _ ih =>
    obtain ⟨paused, _, deeper⟩ := nested.of_included open_
    exact ⟨paused, by rw [running]; nofun, ih deeper⟩
  | footer open_ _ _ =>
    obtain ⟨paused, _, deeper⟩ := nested.of_included open_
    exact ⟨paused, fun _ => rfl, deeper⟩
  | close open_ _ _ _ =>
    obtain ⟨paused, _, deeper⟩ := nested.of_included open_
    exact ⟨paused, fun _ => rfl, deeper⟩
  | handOn _ open_ =>
    have kept := nested.of_included open_
    exact kept
  | resume => exact nofun

theorem Path.wellNested {s t : Session} {ps : List Processed} (path : Path o depth s ps t)
    (nested : s.WellNested) : t.WellNested := by
  induction path with
  | nil => exact nested
  | cons step _ ih => exact ih (step.wellNested nested)

theorem outer_inner {s : Session} {i : Included} {deeper : List Included}
    (open_ : s.included = i :: deeper) : s.outer i (s.inner i deeper) = s := by
  unfold outer inner
  rw [← open_]

theorem Path.included {s t : Session} {i : Included} {deeper : List Included} {ps : List Processed}
    (path : Path o depth (s.inner i deeper) ps t) (open_ : s.included = i :: deeper)
    (running : i.exhausted = false) : Path o (depth + 1) s ps (s.outer i t) := by
  generalize start : s.inner i deeper = r at path
  induction path generalizing s i deeper with
  | nil =>
    subst start
    rw [outer_inner open_]
    exact .nil
  | @cons _ _ m _ _ step _ ih =>
    subst start
    exact .cons (.included open_ running step)
      (ih (s := s.outer i m) (i := { i with toOpenFile := m.toOpenFile }) rfl running rfl)

theorem Fails.of_streamClosed {s t : Session} {ps : List Processed}
    (fails : Fails o depth s ps .streamClosed t) :
    ps = [] ∧ s.state.phase.readsEntries ∧
      ∃ reader, ChunkReader.next s.reader = (.error .streamClosed, reader) ∧
        t = { s with reader } := by
  generalize closed : Failure.streamClosed = f at fails
  cases fails with
  | header _ failed =>
    subst closed
    exact absurd (congrArg Prod.fst failed) (ChunkReader.neverCloses_fileHeader s.reader)
  | next reads failed =>
    subst closed
    exact ⟨rfl, reads, _, failed, rfl⟩
  | entry _ _ failed =>
    subst closed
    exact absurd failed (Desk.neverCloses_process o _ _)
  | tooDeep => cases closed
  | included _ _ lasting _ => exact absurd closed.symm lasting

/-- What filling a batch up to `limit` records leads to. -/
inductive Filled (o : StreamOptions) (depth limit : Nat) (s : Session) :
    Except Failure Unit → Session → Prop where
  | ok {ps t} : Path o depth s ps t → limit ≤ t.state.batch.length ∨ t.state.phase = .done →
      Filled o depth limit s (.ok ()) t
  | error {ps qs m t f} : Path o depth s ps m → Fails o depth m qs f t →
      Filled o depth limit s (.error f) t

theorem Filled.after {limit : Nat} {s m t : Session} {ps : List Processed}
    {result : Except Failure Unit} (path : Path o depth s ps m)
    (filled : Filled o depth limit m result t) : Filled o depth limit s result t := by
  cases filled with
  | ok more full => exact .ok (path.trans more) full
  | error more fails => exact .error (path.trans more) fails

/-- What filling the batch of an included file leads to, for the session that it is part of. -/
inductive Served (o : StreamOptions) (depth limit : Nat) (s : Session) (i : Included) :
    Except Failure Unit → Session → Prop where
  | ok {ps t} : Path o depth s ps (s.outer i t) → limit ≤ t.state.batch.length →
      t.state.phase ≠ .done → Served o depth limit s i (.ok ()) t
  | done {ps t} : Path o depth s ps (s.outer { i with exhausted := true } t) → t.included = [] →
      t.state.phase = .done → Served o depth limit s i (.ok ()) t
  | closed {ps t} : Path o depth s ps (s.outer { i with exhausted := true } t) → t.included = [] →
      Served o depth limit s i (.error .streamClosed) t
  | error {ps qs m t f} : f ≠ .streamClosed → Path o depth s ps m →
      Fails o depth m qs f (s.outer i t) → Served o depth limit s i (.error f) t

def Serves (o : StreamOptions) (depth : Nat) (filler : Filler) : Prop :=
  ∀ {s i deeper} limit, s.WellNested → s.included = i :: deeper → i.exhausted = false →
    Served o depth limit s i (filler limit (s.inner i deeper)).1 (filler limit (s.inner i deeper)).2

theorem serves_tooDeep : Serves o 0 tooDeep := by
  intro s i deeper limit nested open_ running
  have fails : Fails o 0 s [] (.includedTooDeep i.state.file.name)
      (s.outer i (s.inner i deeper)) := by
    rw [outer_inner open_]
    exact .tooDeep open_ running
  exact .error nofun .nil fails

theorem serves_of_filled {filler : Filler}
    (fills : ∀ limit s, s.WellNested →
      Filled o depth limit s (filler limit s).1 (filler limit s).2) :
    Serves o (depth + 1) filler := by
  intro s i deeper limit nested open_ running
  have nestedInner : (s.inner i deeper).WellNested := (nested.of_included open_).2.2
  have filled := fills limit (s.inner i deeper) nestedInner
  rcases served : filler limit (s.inner i deeper) with ⟨result, t⟩
  rw [served] at filled
  dsimp only at filled ⊢
  cases filled with
  | ok path full =>
    have lifted := path.included open_ running
    by_cases done : t.state.phase = .done
    · have last := (path.wellNested nestedInner).included_nil (by rw [done]; nofun)
      refine .done (lifted.snoc ?_) last done
      have ends : Step o (depth + 1) (s.outer i t) []
          { s.outer i t with
            included := [{ i with toOpenFile := t.toOpenFile, exhausted := true }] } :=
        .footer (i := { i with toOpenFile := t.toOpenFile }) (by simp [outer, last]) running done
      simpa [outer, last] using ends
    · exact .ok lifted (full.resolve_right done) done
  | @error ps qs m _ f path fails =>
    have lifted := path.included open_ running
    by_cases closed : f = .streamClosed
    · subst closed
      obtain ⟨_, reads, reader, ended, rfl⟩ := fails.of_streamClosed
      have alone : m.included = [] := (path.wellNested nestedInner).alone_of_reads reads
      refine .closed (lifted.snoc ?_) alone
      have closes : Step o (depth + 1) (s.outer i m) []
          { s.outer i m with
            included :=
              [{ i with toOpenFile := { m.toOpenFile with reader }, exhausted := true }] } :=
        .close (i := { i with toOpenFile := m.toOpenFile }) (by simp [outer, alone]) running reads
          ended
      simpa [outer, alone] using closes
    · exact .error closed lifted
        (.included (i := { i with toOpenFile := m.toOpenFile }) rfl running closed fails)

/-- The session with other files included, which have got on together. -/
def withIncluded (s : Session) (included : List Included) (journal : Journal) : Session :=
  { s with included, journal }

theorem withIncluded_self {s : Session} {included : List Included} (open_ : s.included = included) :
    s.withIncluded included s.journal = s := by
  subst open_
  rfl

/-- Reading on in an included file is a path, after which the file has what was asked for or ends. -/
theorem served_fill {filler : Filler} (serves : Serves o depth filler) {s : Session} {i : Included}
    {deeper : List Included} (limit : Nat) (nested : s.WellNested)
    (open_ : s.included = i :: deeper) :
    match i.fill filler limit deeper s.journal with
    | (.ok (), i', deeper', journal) =>
        (∃ ps, Path o depth s ps (s.withIncluded (i' :: deeper') journal)) ∧
        (limit ≤ i'.state.batch.length ∨ i'.exhausted) ∧ (i'.exhausted → deeper' = [])
    | (.error f, i', deeper', journal) => ∃ ps m qs, Path o depth s ps m ∧
        Fails o depth m qs f (s.withIncluded (i' :: deeper') journal) := by
  obtain ⟨_, alone, _⟩ := nested.of_included open_
  unfold Included.fill
  by_cases idle : (i.exhausted || limit ≤ i.state.batch.length) = true
  · rw [if_pos idle]
    simp only [Bool.or_eq_true, decide_eq_true_eq] at idle
    refine ⟨⟨[], ?_⟩, idle.symm, alone⟩
    rw [withIncluded_self open_]
    exact .nil
  · rw [if_neg idle]
    simp only [Bool.or_eq_true, decide_eq_true_eq, not_or, Bool.not_eq_true] at idle
    have served := serves limit nested open_ idle.1
    have same : filler limit ⟨i.toOpenFile, deeper, s.journal⟩ =
        filler limit (s.inner i deeper) := rfl
    rw [same]
    rcases filled : filler limit (s.inner i deeper) with ⟨result, t⟩
    rw [filled] at served
    dsimp only at served ⊢
    cases served with
    | @ok ps _ path full running =>
      refine ⟨⟨ps, ?_⟩, .inl full, by simp [running]⟩
      simpa [outer, withIncluded, running, idle.1] using path
    | @done ps _ path last done =>
      refine ⟨⟨ps, ?_⟩, .inr (by simp [done]), fun _ => last⟩
      simpa [outer, withIncluded, done] using path
    | @closed ps _ path last => exact ⟨⟨ps, path⟩, .inr rfl, fun _ => last⟩
    | @error ps qs m _ f lasting path fails =>
      have failed : ∃ ps m qs, Path o depth s ps m ∧ Fails o depth m qs f (s.outer i t) :=
        ⟨ps, m, qs, path, fails⟩
      cases f <;> first | exact failed | exact absurd rfl lasting

theorem filled_poll {filler : Filler} (serves : Serves o depth filler) (limit : Nat) {s : Session}
    (nested : s.WellNested) (paused : s.state.phase = .paused)
    (room : s.state.batch.length < limit) :
    match s.poll filler limit with
    | .again t => ∃ ps, Path o depth s ps t
    | .stop result t => Filled o depth limit s result t := by
  cases open_ : s.included with
  | nil => exact absurd open_ (nested.paused_of_included.mp paused)
  | cons i deeper =>
    have served := served_fill serves (limit - s.state.batch.length) nested open_
    unfold poll
    rw [open_]
    dsimp only
    rcases filled : i.fill filler (limit - s.state.batch.length) deeper s.journal with
      ⟨f | _, i', deeper', journal⟩ <;> rw [filled] at served
    · obtain ⟨ps, m, qs, path, fails⟩ := served
      exact .error path fails
    · obtain ⟨⟨ps, path⟩, enough, last⟩ := served
      have handed := path.snoc (.handOn (limit - s.state.batch.length) rfl)
      dsimp only
      by_cases finished : (i'.handOn (limit - s.state.batch.length)).isFinished
      · rw [if_pos finished]
        have exhausted : i'.exhausted = true := by
          simp only [Included.isFinished, Bool.and_eq_true] at finished
          exact finished.1
        obtain rfl := last exhausted
        exact ⟨ps, handed.snoc (.resume rfl finished)⟩
      · rw [if_neg finished]
        refine .ok handed (.inl ?_)
        have long : limit - s.state.batch.length ≤ i'.state.batch.length := by
          rcases enough with enough | exhausted
          · exact enough
          · simp only [Included.isFinished, Included.handOn, exhausted, Bool.true_and,
              List.isEmpty_iff, List.drop_eq_nil_iff] at finished
            omega
        simp only [addRecords, List.length_append, List.length_take]
        omega

theorem afterEntry_none {s : Session} (alone : s.included = []) (reader : ChunkReader) (d : Desk) :
    { s with reader, state := (d.prepend s.state.batch).state, journal := d.journal } =
      s.afterEntry reader d none := by
  unfold afterEntry
  rw [alone]
  rfl

theorem filled_advance (limit : Nat) {s : Session} (nested : s.WellNested)
    (reads : s.state.phase.readsEntries) :
    match s.advance o with
    | .again t => ∃ ps, Path o depth s ps t
    | .stop result t => Filled o depth limit s result t := by
  have alone : s.included = [] := nested.alone_of_reads reads
  unfold advance
  rcases found : ChunkReader.next s.reader with ⟨f | e, reader⟩
  · exact .error .nil (.next reads found)
  · have desk : (⟨{ s.state with phase := .reading }, s.journal⟩ : Desk) =
        (s.processing e).desk.prepend s.state.batch := by
      simp [processing, Desk.prepend]
    dsimp only
    rw [desk, Desk.process_prepend]
    have after : Desk.process o e (s.processing e).desk =
        ((s.processing e).result o, (s.processing e).after o) := rfl
    rw [after]
    cases done : (s.processing e).result o with
    | error f =>
      have fails : Fails o depth s [s.processing e] f _ := .entry reads found done
      exact .error .nil (afterEntry_none alone reader _ ▸ fails)
    | ok opened =>
      have step : Step o depth s [s.processing e] _ := .entry reads found done
      cases opened with
      | none => exact ⟨_, .single (afterEntry_none alone reader _ ▸ step)⟩
      | some i => exact ⟨_, .single step⟩

theorem filled_turn {filler : Filler} (serves : Serves o depth filler) (limit : Nat) {s : Session}
    (nested : s.WellNested) (opened : s.state.phase ≠ .unopened) :
    match s.turn o filler limit with
    | .again t => ∃ ps, Path o depth s ps t
    | .stop result t => Filled o depth limit s result t := by
  unfold turn
  by_cases full : limit ≤ s.state.batch.length
  · rw [if_pos full]
    exact .ok .nil (.inl full)
  · rw [if_neg full]
    cases phase : s.state.phase with
    | unopened => exact absurd phase opened
    | headerRead => exact filled_advance limit nested (by rw [phase]; rfl)
    | reading => exact filled_advance limit nested (by rw [phase]; rfl)
    | paused => exact filled_poll serves limit nested phase (Nat.lt_of_not_le full)
    | done => exact .ok .nil (.inr phase)

theorem Step.opened {s t : Session} {ps : List Processed} (step : Step o depth s ps t)
    (opened : s.state.phase ≠ .unopened) : t.state.phase ≠ .unopened := by
  cases step with
  | header => exact Phase.noConfusion
  | entry _ _ done => exact Processed.opened_after o _ rfl done
  | resume => exact Phase.noConfusion
  | included | footer | close | handOn => exact opened

theorem Path.opened {s t : Session} {ps : List Processed} (path : Path o depth s ps t)
    (opened : s.state.phase ≠ .unopened) : t.state.phase ≠ .unopened := by
  induction path with
  | nil => exact opened
  | cons step _ ih => exact ih (step.opened opened)

theorem filled_run {filler : Filler} (serves : Serves o depth filler) (limit : Nat) {s : Session}
    (nested : s.WellNested) (opened : s.state.phase ≠ .unopened) :
    Filled o depth limit s (run o filler limit s).1 (run o filler limit s).2 := by
  induction s using run.induct o filler limit with
  | case1 s result t stops =>
    have filled := filled_turn serves limit nested opened
    rw [stops] at filled
    rw [run_of_stop stops]
    exact filled
  | case2 s t again ih =>
    have filled := filled_turn serves limit nested opened
    rw [again] at filled
    obtain ⟨ps, path⟩ := filled
    rw [run_of_again again]
    exact (ih (path.wellNested nested) (path.opened opened)).after path

theorem filled_fillWith {filler : Filler} (serves : Serves o depth filler) (limit : Nat)
    {s : Session} (nested : s.WellNested) :
    Filled o depth limit s (fillWith o filler limit s).1 (fillWith o filler limit s).2 := by
  unfold fillWith
  by_cases unopened : s.state.phase = .unopened
  · rw [if_pos unopened]
    rcases header : ChunkReader.fileHeader s.reader with ⟨f | h, reader⟩
    · exact .error .nil (.header unopened header)
    · have step : Step o depth s [] _ := .header unopened header
      exact (filled_run serves limit (step.wellNested nested) nofun).after (.single step)
  · rw [if_neg unopened]
    exact filled_run serves limit nested unopened

/-- Filling a batch takes steps only, until it is full or the file is done, or a step fails. -/
theorem filled_fill (depth limit : Nat) {s : Session} (nested : s.WellNested) :
    Filled o depth limit s (fill o depth limit s).1 (fill o depth limit s).2 := by
  induction depth generalizing limit s with
  | zero => exact filled_fillWith serves_tooDeep limit nested
  | succ depth ih =>
    exact filled_fillWith (serves_of_filled fun limit s nested => ih limit nested) limit nested

end Session

end ChangeCapture
