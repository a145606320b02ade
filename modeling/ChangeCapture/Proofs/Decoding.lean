import ChangeCapture.Proofs.Steps

/-! Files read in one go, where an included file is read to its end before its own file goes on and
where nobody takes records in between. However the batches of a session are cut, its steps lead
along that reading: what was processed before and what is left to process make up the whole. -/
namespace ChangeCapture

/-- What reading to the end comes to. -/
structure Outcome where
  processed : List Processed
  result : Except Failure Unit
  session : Session

namespace Outcome

/-- The end of a longer reading. -/
def after (x : Outcome) (ps : List Processed) : Outcome := { x with processed := ps ++ x.processed }

def records (o : StreamOptions) (x : Outcome) : List DomainRecord :=
  Processed.allRecords o x.processed

/-- Whether the file ended, with a footer or without. -/
def isClean (x : Outcome) : Bool :=
  match x.result with
  | .ok () => true
  | .error f => !f.isFatal

@[simp] theorem after_nil (x : Outcome) : x.after [] = x := rfl

@[simp] theorem after_after (x : Outcome) (ps qs : List Processed) :
    (x.after qs).after ps = x.after (ps ++ qs) := by
  simp [after]

@[simp] theorem isClean_after (x : Outcome) (ps : List Processed) :
    (x.after ps).isClean = x.isClean := rfl

@[simp] theorem records_after (o : StreamOptions) (x : Outcome) (ps : List Processed) :
    (x.after ps).records o = Processed.allRecords o ps ++ x.records o := by
  simp [records, after]

end Outcome

theorem Phase.paused_opened {p : Phase} (paused : p = .paused) : p ≠ .unopened := by
  rw [paused]
  decide

theorem Phase.opened_of_readsEntries {p : Phase} (reads : p.readsEntries) : p ≠ .unopened := by
  rintro rfl
  cases reads

namespace Included

/-- Records that wait in included files, those of the files further out first. -/
def waiting (included : List Included) : List DomainRecord :=
  included.flatMap (fun i => i.state.batch)

/-- An included file without the records that wait in it and in the files that it includes, all of
which are taken to be delivered. -/
def emptied (i : Included) (deeper : List Included) : Included :=
  { i with
    state := { i.state with batch := [] }
    delivered := i.delivered + (waiting (i :: deeper)).countP DomainRecord.isData }

def bare : List Included → List Included
  | [] => []
  | i :: deeper => i.emptied deeper :: bare deeper

/-- An included file that was read on, with the records that it has delivered since. -/
def readOn (o : StreamOptions) (i : Included) (x : Outcome) : Included :=
  { i with
    toOpenFile := x.session.toOpenFile
    delivered := i.delivered + (x.records o).countP DomainRecord.isData }

end Included

namespace Session

/-- All records that were decoded and not taken yet. -/
def waiting (s : Session) : List DomainRecord := s.state.batch ++ Included.waiting s.included

def bare (s : Session) : Session :=
  { s with state := { s.state with batch := [] }, included := Included.bare s.included }

/-- A turn without a limit, on a session without records; included files are left to `inner`. -/
def turnWhole (o : StreamOptions) (inner : Session → Outcome) (s : Session) :
    List Processed × Turn :=
  match s.state.phase with
  | .done => ([], .stop (.ok ()) s)
  | .paused =>
    match s.included with
    | [] => ([], .again { s with state := { s.state with phase := .reading } })
    | i :: deeper =>
      if i.exhausted then ([], .again (s.resume i))
      else
        let x := inner (s.inner i deeper)
        let s := s.outer (i.readOn o x) x.session
        if x.isClean then (x.processed, .again (s.resume (i.readOn o x)))
        else (x.processed, .stop x.result s)
  | _ =>
    match ChunkReader.next s.reader with
    | (.error f, reader) => ([], .stop (.error f) { s with reader })
    | (.ok e, reader) =>
      let p := s.processing e
      match p.result o with
      | .error f => ([p], .stop (.error f) (s.afterEntry reader (p.after o) none).bare)
      | .ok opened => ([p], .again (s.afterEntry reader (p.after o) opened).bare)

theorem size_of_source {s t : Session} (smaller : t.reader.source.size < s.reader.source.size) :
    t.size < s.size := by
  unfold size
  split <;> split <;> omega

theorem size_of_turnWhole {o : StreamOptions} {inner : Session → Outcome} {s t : Session}
    {ps : List Processed} (again : s.turnWhole o inner = (ps, .again t)) : t.size < s.size := by
  unfold turnWhole at again
  split at again
  · cases again
  next paused =>
    split at again
    · cases again
      simp [size, paused]
    · dsimp only at again
      split at again
      · cases again
        simp [size, resume, paused]
      · split at again <;> cases again
        simp [size, resume, outer, paused]
  · split at again
    · cases again
    next e reader found =>
      have smaller := ChunkReader.size_next_lt found
      dsimp only at again
      split at again <;> cases again
      exact size_of_source smaller

/-- Reads on to the end of a file whose header was read. -/
def whole (o : StreamOptions) (inner : Session → Outcome) (s : Session) : Outcome :=
  match _h : s.turnWhole o inner with
  | (ps, .stop result s) => ⟨ps, result, s⟩
  | (ps, .again s) => (whole o inner s).after ps
termination_by s.size
decreasing_by exact size_of_turnWhole _h

def decodeWith (o : StreamOptions) (inner : Session → Outcome) (s : Session) : Outcome :=
  if s.state.phase = .unopened then
    match ChunkReader.fileHeader s.reader with
    | (.error f, reader) => ⟨[], .error f, { s with reader }⟩
    | (.ok _, reader) =>
      whole o inner { s with reader, state := { s.state with phase := .headerRead } }
  else whole o inner s

/-- Included files are not read at all. -/
def refuse (s : Session) : Outcome := ⟨[], .error (.includedTooDeep s.state.file.name), s⟩

/-- Reads to the end, where files are included up to `depth` deep. -/
def decode (o : StreamOptions) : Nat → Session → Outcome
  | 0 => decodeWith o refuse
  | depth + 1 => decodeWith o (decode o depth)

/-- How included files are read up to a depth. -/
def decodeInner (o : StreamOptions) : Nat → Session → Outcome
  | 0 => refuse
  | depth + 1 => decode o depth

theorem decode_eq (o : StreamOptions) (depth : Nat) :
    decode o depth = decodeWith o (decodeInner o depth) := by
  cases depth <;> rfl

theorem whole_again {o : StreamOptions} {inner : Session → Outcome} {s t : Session}
    {ps : List Processed} (again : s.turnWhole o inner = (ps, .again t)) :
    whole o inner s = (whole o inner t).after ps := by
  rw [whole]
  split
  next stops => rw [again] at stops; cases stops
  next again' => rw [again] at again'; cases again'; rfl

theorem whole_stop {o : StreamOptions} {inner : Session → Outcome} {s t : Session}
    {ps : List Processed} {result : Except Failure Unit}
    (stop : s.turnWhole o inner = (ps, .stop result t)) : whole o inner s = ⟨ps, result, t⟩ := by
  unfold whole
  split
  next stops => rw [stop] at stops; cases stops; rfl
  next again => rw [stop] at again; cases again

variable {o : StreamOptions} {depth : Nat}

theorem decode_of_opened {s : Session} (opened : s.state.phase ≠ .unopened) :
    decode o depth s = whole o (decodeInner o depth) s := by
  rw [decode_eq, decodeWith, if_neg opened]

theorem decodeInner_reads {s : Session} (reads : s.state.phase.readsEntries) :
    decodeInner o (depth + 1) s = whole o (decodeInner o depth) s :=
  decode_of_opened (Phase.opened_of_readsEntries reads)

@[simp] theorem isClean_refused (s : Session) : (decodeInner o 0 s).isClean = false := rfl

theorem turnWhole_reads {inner : Session → Outcome} {s : Session}
    (reads : s.state.phase.readsEntries) :
    s.turnWhole o inner = match ChunkReader.next s.reader with
      | (.error f, reader) => ([], .stop (.error f) { s with reader })
      | (.ok e, reader) =>
        match (s.processing e).result o with
        | .error f => ([s.processing e],
            .stop (.error f) (s.afterEntry reader ((s.processing e).after o) none).bare)
        | .ok opened => ([s.processing e],
            .again (s.afterEntry reader ((s.processing e).after o) opened).bare) := by
  unfold turnWhole
  cases phase : s.state.phase <;> rw [phase] at reads <;> first | rfl | cases reads

theorem turnWhole_included {inner : Session → Outcome} {s : Session} {i : Included}
    {deeper : List Included} (paused : s.state.phase = .paused) (open_ : s.included = i :: deeper)
    (running : i.exhausted = false) :
    s.turnWhole o inner =
      let x := inner (s.inner i deeper)
      let s := s.outer (i.readOn o x) x.session
      if x.isClean then (x.processed, .again (s.resume (i.readOn o x)))
      else (x.processed, .stop x.result s) := by
  simp [turnWhole, paused, open_, running]

theorem turnWhole_exhausted {inner : Session → Outcome} {s : Session} {i : Included}
    {deeper : List Included} (paused : s.state.phase = .paused) (open_ : s.included = i :: deeper)
    (exhausted : i.exhausted = true) : s.turnWhole o inner = ([], .again (s.resume i)) := by
  simp [turnWhole, paused, open_, exhausted]

theorem whole_done {inner : Session → Outcome} {s : Session} (done : s.state.phase = .done) :
    whole o inner s = ⟨[], .ok (), s⟩ :=
  whole_stop (by simp [turnWhole, done])

theorem whole_failed {inner : Session → Outcome} {s : Session} {f : Failure} {reader : ChunkReader}
    (reads : s.state.phase.readsEntries) (failed : ChunkReader.next s.reader = (.error f, reader)) :
    whole o inner s = ⟨[], .error f, { s with reader }⟩ :=
  whole_stop (by rw [turnWhole_reads reads, failed])

theorem decode_done {s : Session} (done : s.state.phase = .done) :
    decode o depth s = ⟨[], .ok (), s⟩ := by
  rw [decode_of_opened (by rw [done]; nofun), whole_done done]

theorem decode_failed {s : Session} {f : Failure} {reader : ChunkReader}
    (reads : s.state.phase.readsEntries) (failed : ChunkReader.next s.reader = (.error f, reader)) :
    decode o depth s = ⟨[], .error f, { s with reader }⟩ := by
  rw [decode_of_opened (Phase.opened_of_readsEntries reads), whole_failed reads failed]

/-- Along a step the reading of the whole goes on, and records are neither lost nor reordered. -/
structure Continues (o : StreamOptions) (depth : Nat) (s : Session) (ps : List Processed)
    (t : Session) : Prop where
  decode : decode o depth s.bare = (decode o depth t.bare).after ps
  waiting : t.waiting = s.waiting ++ Processed.allRecords o ps

theorem turnWhole_entry {inner : Session → Outcome} {s : Session} {e : Entry} {reader : ChunkReader}
    (reads : s.state.phase.readsEntries) (found : ChunkReader.next s.reader = (.ok e, reader)) :
    s.bare.turnWhole o inner = match (s.processing e).result o with
      | .error f => ([s.processing e],
          .stop (.error f) (s.afterEntry reader ((s.processing e).after o) none).bare)
      | .ok opened => ([s.processing e],
          .again (s.afterEntry reader ((s.processing e).after o) opened).bare) := by
  have found : ChunkReader.next s.bare.reader = (.ok e, reader) := found
  rw [turnWhole_reads (s := s.bare) reads, found]
  rfl

/-- Turns that lead to the same, one of them from further ahead. -/
theorem whole_later {inner : Session → Outcome} {s t : Session} {ps qs : List Processed}
    {turn : Turn} (first : s.turnWhole o inner = (ps ++ qs, turn))
    (second : t.turnWhole o inner = (qs, turn)) :
    whole o inner s = (whole o inner t).after ps := by
  cases turn with
  | again => rw [whole_again first, whole_again second, Outcome.after_after]
  | stop => rw [whole_stop first, whole_stop second, Outcome.after]

theorem decode_header {s : Session} {h : FileHeader} {reader : ChunkReader}
    (unopened : s.state.phase = .unopened)
    (read : ChunkReader.fileHeader s.reader = (.ok h, reader)) :
    decode o depth s =
      decode o depth { s with reader, state := { s.state with phase := .headerRead } } := by
  have opens : { s with reader, state := { s.state with phase := .headerRead } }.state.phase ≠
      .unopened := Phase.noConfusion
  rw [decode_of_opened opens, decode_eq, decodeWith, if_pos unopened, read]

theorem decode_unopened {s : Session} {f : Failure} {reader : ChunkReader}
    (unopened : s.state.phase = .unopened)
    (failed : ChunkReader.fileHeader s.reader = (.error f, reader)) :
    decode o depth s = ⟨[], .error f, { s with reader }⟩ := by
  rw [decode_eq, decodeWith, if_pos unopened, failed]

theorem bare_included {s : Session} {i : Included} {deeper : List Included}
    (open_ : s.included = i :: deeper) :
    s.bare.included = i.emptied deeper :: Included.bare deeper := by
  rw [bare, open_, Included.bare]

theorem turnWhole_inner {s : Session} {i : Included} {deeper : List Included}
    (paused : s.state.phase = .paused) (open_ : s.included = i :: deeper)
    (running : i.exhausted = false) :
    s.bare.turnWhole o (decode o depth) =
      let x := decode o depth (s.inner i deeper).bare
      let k := (i.emptied deeper).readOn o x
      if x.isClean then (x.processed, .again ((s.bare.outer k x.session).resume k))
      else (x.processed, .stop x.result (s.bare.outer k x.session)) :=
  turnWhole_included (s := s.bare) paused (bare_included open_) running

theorem readOn_after {s t : Session} {i : Included} {deeper : List Included} {ps : List Processed}
    (waiting : t.waiting = (s.inner i deeper).waiting ++ Processed.allRecords o ps) (x : Outcome) :
    (i.emptied deeper).readOn o (x.after ps) =
      ({ i with toOpenFile := t.toOpenFile }.emptied t.included).readOn o x := by
  have count := congrArg (List.countP DomainRecord.isData) waiting
  simp only [Session.waiting, inner, List.countP_append] at count
  simp only [Included.readOn, Included.emptied, Included.waiting, Outcome.after, Outcome.records,
    Processed.allRecords_append, List.flatMap_cons, List.countP_append, Included.mk.injEq, true_and]
  simp only [Included.waiting] at count
  omega

theorem waiting_outer {s t : Session} {i : Included} {deeper : List Included}
    {records : List DomainRecord} (open_ : s.included = i :: deeper)
    (waiting : t.waiting = (s.inner i deeper).waiting ++ records) :
    (s.outer i t).waiting = s.waiting ++ records := by
  simp only [Session.waiting, inner] at waiting
  simp only [Session.waiting, outer, Included.waiting, List.flatMap_cons, open_] at waiting ⊢
  rw [waiting]
  simp

/-- What an included file does goes on in the file that it is part of. -/
theorem Continues.outer {s t : Session} {i : Included} {deeper : List Included}
    {ps : List Processed} (continues : Continues o depth (s.inner i deeper) ps t)
    (paused : s.state.phase = .paused) (open_ : s.included = i :: deeper)
    (running : i.exhausted = false) : Continues o (depth + 1) s ps (s.outer i t) := by
  obtain ⟨decoded, waiting⟩ := continues
  refine ⟨?_, waiting_outer open_ waiting⟩
  have opens : s.bare.state.phase ≠ .unopened := Phase.paused_opened paused
  have opensToo : (s.outer i t).bare.state.phase ≠ .unopened := Phase.paused_opened paused
  rw [decode_of_opened opens, decode_of_opened opensToo]
  have first : s.bare.turnWhole o (Session.decode o depth) = _ := turnWhole_inner paused open_ running
  have second : (s.outer i t).bare.turnWhole o (Session.decode o depth) = _ :=
    turnWhole_inner (s := s.outer i t) paused rfl running
  have same : (s.outer i t).inner { i with toOpenFile := t.toOpenFile } t.included = t := rfl
  rw [decoded] at first
  rw [same] at second
  dsimp only at first second
  rw [readOn_after waiting, Outcome.isClean_after] at first
  by_cases clean : (Session.decode o depth t.bare).isClean
  · rw [if_pos clean] at first second
    exact whole_later first second
  · rw [if_neg clean] at first second
    exact whole_later first second

/-- An included file that has nothing more to read is as good as one that is known to have ended. -/
theorem continues_ended {s u : Session} {i k : Included} {result : Except Failure Unit}
    (paused : s.state.phase = .paused) (open_ : s.included = [i]) (running : i.exhausted = false)
    (read : decode o depth (s.inner i []).bare = ⟨[], result, u⟩)
    (clean : (Outcome.mk [] result u).isClean) (cache : u.state.cache = i.state.cache)
    (journal : u.journal = s.journal) (exhausted : k.exhausted = true)
    (same : k.state = i.state) (delivered : k.delivered = i.delivered) :
    Continues o (depth + 1) s [] { s with included := [k] } := by
  refine ⟨?_, by simp [waiting, open_, Included.waiting, same]⟩
  have opens : s.bare.state.phase ≠ .unopened := Phase.paused_opened paused
  have opensToo : { s with included := [k] }.bare.state.phase ≠ .unopened := opens
  have first : s.bare.turnWhole o (decode o depth) = _ := turnWhole_inner paused open_ running
  have second : { s with included := [k] }.bare.turnWhole o (decode o depth) = ([], .again _) :=
    turnWhole_exhausted paused rfl exhausted
  rw [read] at first
  dsimp only at first
  rw [if_pos clean] at first
  have resumed : (s.bare.outer ((i.emptied []).readOn o ⟨[], result, u⟩) u).resume
      ((i.emptied []).readOn o ⟨[], result, u⟩) =
        { s with included := [k] }.bare.resume (k.emptied []) := by
    simp [resume, outer, bare, Included.readOn, Included.emptied, Outcome.records, cache, journal,
      same, delivered, Included.waiting]
  rw [resumed] at first
  rw [decode_of_opened opens, decode_of_opened opensToo]
  exact whole_later first second

theorem waiting_afterEntry {s : Session} {reader : ChunkReader} {d : Desk}
    {opened : Option Included} (alone : s.included = [])
    (nothing : Included.waiting opened.toList = []) :
    (s.afterEntry reader d opened).waiting = s.waiting ++ d.state.batch := by
  show (s.state.batch ++ d.state.batch) ++ Included.waiting opened.toList = _
  rw [nothing, waiting, alone]
  simp [Included.waiting]

theorem continues_entry {s : Session} {e : Entry} {reader : ChunkReader} {opened : Option Included}
    (nested : s.WellNested) (reads : s.state.phase.readsEntries)
    (found : ChunkReader.next s.reader = (.ok e, reader))
    (done : (s.processing e).result o = .ok opened) :
    Continues o depth s [s.processing e]
      (s.afterEntry reader ((s.processing e).after o) opened) := by
  constructor
  · have opens : s.bare.state.phase ≠ .unopened := Phase.opened_of_readsEntries reads
    have step : Step o depth s [s.processing e] _ := .entry reads found done
    have turn : s.bare.turnWhole o (decodeInner o depth) = _ := turnWhole_entry reads found
    rw [done] at turn
    rw [decode_of_opened opens, whole_again turn, decode_of_opened]
    exact step.opened opens
  · have nothing : Included.waiting opened.toList = [] := by
      rcases Processed.phase_after o _ rfl done with ⟨rfl, _⟩ | ⟨i, rfl, _, fresh⟩
      · rfl
      · simp [Included.waiting, fresh.batch]
    rw [waiting_afterEntry (nested.alone_of_reads reads) nothing, Processed.allRecords_singleton]
    rfl

theorem bare_handOn {s : Session} {i : Included} {deeper : List Included} (count : Nat)
    (open_ : s.included = i :: deeper) :
    { s.addRecords (i.state.batch.take count) with included := i.handOn count :: deeper }.bare =
      s.bare := by
  have split : (i.state.batch.take count ++ i.state.batch.drop count).countP DomainRecord.isData =
      _ := List.countP_append
  rw [List.take_append_drop] at split
  simp only [bare, open_, Included.bare, Included.emptied, Included.handOn, Included.waiting,
    List.flatMap_cons, List.countP_append, addRecords, split, Nat.add_assoc]

theorem bare_resume {s : Session} {i : Included} (nothing : i.state.batch = []) :
    s.bare.resume (i.emptied []) = (s.resume i).bare := by
  simp [resume, bare, Included.emptied, Included.waiting, nothing, Included.bare]

theorem continues_resume {s : Session} {i : Included} (paused : s.state.phase = .paused)
    (open_ : s.included = [i]) (finished : i.isFinished) :
    Continues o depth s [] (s.resume i) := by
  simp only [Included.isFinished, Bool.and_eq_true, List.isEmpty_iff] at finished
  obtain ⟨exhausted, nothing⟩ := finished
  constructor
  · have opens : s.bare.state.phase ≠ .unopened := Phase.paused_opened paused
    have opensToo : (s.resume i).bare.state.phase ≠ .unopened := Phase.noConfusion
    have turn : s.bare.turnWhole o (decodeInner o depth) = ([], .again _) :=
      turnWhole_exhausted (s := s.bare) paused (bare_included open_) exhausted
    rw [bare_resume nothing] at turn
    rw [decode_of_opened opens, whole_again turn, decode_of_opened opensToo]
  · simp [waiting, Session.resume, open_, Included.waiting, nothing]

theorem Step.continues {s t : Session} {ps : List Processed} (step : Step o depth s ps t)
    (nested : s.WellNested) : Continues o depth s ps t := by
  induction step with
  | @header depth s h reader unopened read =>
    exact ⟨decode_header (s := s.bare) unopened read, by simp [waiting]⟩
  | entry reads found done => exact continues_entry nested reads found done
  | included open_ running _ ih =>
    obtain ⟨paused, _, nestedInner⟩ := nested.of_included open_
    exact (ih nestedInner).outer paused open_ running
  | footer open_ running done =>
    obtain ⟨paused, -⟩ := nested.of_included open_
    exact continues_ended paused open_ running (decode_done done) rfl rfl rfl rfl rfl rfl
  | close open_ running reads ended =>
    obtain ⟨paused, -⟩ := nested.of_included open_
    exact continues_ended paused open_ running (decode_failed reads ended) rfl rfl rfl rfl rfl rfl
  | @handOn depth s i deeper count open_ =>
    constructor
    · rw [bare_handOn count open_, Outcome.after_nil]
    · simp only [waiting, addRecords, open_, Included.waiting, Included.handOn, List.flatMap_cons,
        Processed.allRecords_nil, List.append_nil, List.append_assoc]
      rw [← List.append_assoc (i.state.batch.take count), List.take_append_drop]
  | resume open_ finished =>
    obtain ⟨paused, -⟩ := nested.of_included open_
    exact continues_resume paused open_ finished

theorem Path.continues {s t : Session} {ps : List Processed} (path : Path o depth s ps t)
    (nested : s.WellNested) : Continues o depth s ps t := by
  induction path with
  | nil => exact ⟨(Outcome.after_nil _).symm, by simp⟩
  | cons step _ ih =>
    obtain ⟨decode, waiting⟩ := step.continues nested
    obtain ⟨decode', waiting'⟩ := ih (step.wellNested nested)
    exact ⟨by rw [decode, decode', Outcome.after_after], by rw [waiting', waiting]; simp⟩

/-- Where a step fails, the reading of the whole fails too. -/
structure Stops (o : StreamOptions) (depth : Nat) (s : Session) (ps : List Processed) (f : Failure)
    (t : Session) : Prop where
  decode : decode o depth s.bare = ⟨ps, .error f, t.bare⟩
  waiting : t.waiting = s.waiting ++ Processed.allRecords o ps

theorem outer_readOn {s t : Session} {i : Included} {result : Except Failure Unit} :
    s.bare.outer (({ i with toOpenFile := t.toOpenFile }.emptied t.included).readOn o
      ⟨[], result, t.bare⟩) t.bare = (s.outer i t).bare := rfl

theorem Stops.outer {s t : Session} {i : Included} {deeper : List Included} {ps : List Processed}
    {f : Failure} (stops : Stops o depth (s.inner i deeper) ps f t)
    (paused : s.state.phase = .paused) (open_ : s.included = i :: deeper)
    (running : i.exhausted = false) (lasting : f ≠ .streamClosed) :
    Stops o (depth + 1) s ps f (s.outer i t) := by
  obtain ⟨decoded, waiting⟩ := stops
  refine ⟨?_, waiting_outer open_ waiting⟩
  have opens : s.bare.state.phase ≠ .unopened := Phase.paused_opened paused
  rw [decode_of_opened opens]
  refine whole_stop ?_
  have turn : s.bare.turnWhole o (Session.decode o depth) = _ :=
    turnWhole_inner paused open_ running
  have whole_ : (⟨ps, .error f, t.bare⟩ : Outcome) =
      (⟨[], .error f, t.bare⟩ : Outcome).after ps := by simp [Outcome.after]
  have fatal : (⟨ps, .error f, t.bare⟩ : Outcome).isClean = false := by
    simp [Outcome.isClean, Failure.isFatal, lasting]
  rw [decoded] at turn
  dsimp only at turn
  rw [fatal, whole_, readOn_after waiting] at turn
  exact turn

theorem stops_tooDeep {s : Session} {i : Included} {deeper : List Included}
    (paused : s.state.phase = .paused) (open_ : s.included = i :: deeper)
    (running : i.exhausted = false) :
    Stops o 0 s [] (.includedTooDeep i.state.file.name) s := by
  refine ⟨?_, by simp⟩
  have opens : s.bare.state.phase ≠ .unopened := Phase.paused_opened paused
  rw [decode_of_opened opens]
  refine whole_stop ?_
  rw [turnWhole_included (s := s.bare) paused (bare_included open_) running]
  have same : s.bare.outer ((i.emptied deeper).readOn o
      ⟨[], .error (.includedTooDeep i.state.file.name), (s.inner i deeper).bare⟩)
        (s.inner i deeper).bare = (s.outer i (s.inner i deeper)).bare := outer_readOn
  rw [outer_inner open_] at same
  exact congrArg (fun u => ([], Turn.stop _ u)) same

theorem Fails.stops {s t : Session} {ps : List Processed} {f : Failure}
    (fails : Fails o depth s ps f t) (nested : s.WellNested) : Stops o depth s ps f t := by
  induction fails with
  | @header depth s f reader unopened failed =>
    have failed' : ChunkReader.fileHeader s.bare.reader = (.error f, reader) := failed
    refine ⟨?_, by simp [waiting]⟩
    rw [decode_eq, decodeWith, if_pos (show s.bare.state.phase = _ from unopened), failed']
    rfl
  | @next depth s f reader reads failed =>
    exact ⟨decode_failed (s := s.bare) reads failed, by simp [waiting]⟩
  | @entry depth s e reader f reads found failed =>
    constructor
    · rw [decode_of_opened (s := s.bare) (Phase.opened_of_readsEntries reads)]
      refine whole_stop ?_
      rw [turnWhole_entry reads found, failed]
    · rw [waiting_afterEntry (nested.alone_of_reads reads) rfl, Processed.allRecords_singleton]
      rfl
  | tooDeep open_ running => exact stops_tooDeep (nested.of_included open_).1 open_ running
  | included open_ running lasting _ ih =>
    obtain ⟨paused, _, nestedInner⟩ := nested.of_included open_
    exact (ih nestedInner).outer paused open_ running lasting

/-- What filling a batch does to the reading of the whole. -/
inductive Leads (o : StreamOptions) (depth : Nat) (s : Session) :
    Except Failure Unit → Session → Prop where
  | ok {ps t} : Continues o depth s ps t → t.WellNested → Leads o depth s (.ok ()) t
  | error {ps f t} : Stops o depth s ps f t → (f = .streamClosed → t.included = []) →
      Leads o depth s (.error f) t

/-- However small the batches, filling them leads along the reading of the whole. -/
theorem Filled.leads {limit : Nat} {s t : Session} {result : Except Failure Unit}
    (filled : Filled o depth limit s result t) (nested : s.WellNested) :
    Leads o depth s result t := by
  cases filled with
  | ok path => exact .ok (path.continues nested) (path.wellNested nested)
  | @error ps qs m _ f path fails =>
    have nestedThen := path.wellNested nested
    obtain ⟨decoded, waiting⟩ := path.continues nested
    obtain ⟨stopped, waiting'⟩ := fails.stops nestedThen
    refine .error ⟨decoded.trans (by rw [stopped]; rfl), by rw [waiting', waiting]; simp⟩ ?_
    rintro rfl
    obtain ⟨_, reads, reader, _, rfl⟩ := fails.of_streamClosed
    exact nestedThen.alone_of_reads reads

end Session

end ChangeCapture
