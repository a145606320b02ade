import ChangeCapture.LogStream.Processing

/-! Filling a batch, entry by entry, and with the records of included files where one is open. Every
entry uses up input and every included file ends once, so filling comes to an end. -/
namespace ChangeCapture

/-- An open file, the files that are included from it in turn, and the journal of all of them. -/
structure Session extends OpenFile where
  included : List Included
  journal : Journal
deriving DecidableEq, Repr

/-- Fills the batch of a session up to a number of records. -/
abbrev Filler := Nat → Session → Except Failure Unit × Session

/-- Whether batches are full when filling them has gone well, but at the end of a file. -/
def Filler.Fills (filler : Filler) : Prop :=
  ∀ limit s t, filler limit s = (.ok (), t) →
    limit ≤ t.state.batch.length ∨ t.state.phase = .done

namespace Included

/-- Reads on in an included file, unless it has `limit` records or will have no more. A closed
stream ends it. -/
def fill (filler : Filler) (limit : Nat) (i : Included) (deeper : List Included) (j : Journal) :
    Except Failure Unit × Included × List Included × Journal :=
  if i.exhausted || limit ≤ i.state.batch.length then (.ok (), i, deeper, j)
  else
    let (result, s) := filler limit ⟨i.toOpenFile, deeper, j⟩
    let i := { i with toOpenFile := s.toOpenFile }
    match result with
    | .ok () => (.ok (), { i with exhausted := s.state.phase = .done }, s.included, s.journal)
    | .error .streamClosed => (.ok (), { i with exhausted := true }, s.included, s.journal)
    | .error f => (.error f, i, s.included, s.journal)

theorem full_of_fill {filler : Filler} (fills : filler.Fills) {limit : Nat} {i i' : Included}
    {deeper deeper' : List Included} {j j' : Journal}
    (ok : i.fill filler limit deeper j = (.ok (), i', deeper', j')) :
    i'.exhausted ∨ limit ≤ i'.state.batch.length := by
  unfold fill at ok
  split at ok
  next idle =>
    cases ok
    simpa using idle
  next =>
    rcases filled : filler limit ⟨i.toOpenFile, deeper, j⟩ with ⟨result, t⟩
    rw [filled] at ok
    dsimp only at ok
    split at ok <;> cases ok
    · rcases fills limit _ t filled with full | done
      · exact .inr full
      · exact .inl (decide_eq_true done)
    · exact .inl rfl

/-- Whether everything has been handed on. -/
def isFinished (i : Included) : Bool := i.exhausted && i.state.batch.isEmpty

/-- Without its first `limit` records. -/
def handOn (limit : Nat) (i : Included) : Included :=
  { i with
    state := { i.state with batch := i.state.batch.drop limit }
    delivered := i.delivered + (i.state.batch.take limit).countP DomainRecord.isData }

end Included

namespace Session

def size (s : Session) : Nat :=
  2 * s.reader.source.size + if s.state.phase = .paused then 1 else 0

/-- Back in the file itself, with what the included one has learned. -/
def resume (s : Session) (i : Included) : Session :=
  { s with
    state := { s.state with
      phase := .reading
      cache := s.state.cache.mergeBack i.state.cache
      includedRecords := some i.delivered }
    included := [] }

def addRecords (s : Session) (records : List DomainRecord) : Session :=
  { s with state := { s.state with batch := s.state.batch ++ records } }

/-- What a turn leads to. -/
inductive Turn where
  | again (s : Session)
  | stop (result : Except Failure Unit) (s : Session)

/-- Takes over records of an included file as far as there is room. -/
def poll (filler : Filler) (limit : Nat) (s : Session) : Turn :=
  match s.included with
  | [] => .again { s with state := { s.state with phase := .reading } }
  | i :: deeper =>
    let room := limit - s.state.batch.length
    match i.fill filler room deeper s.journal with
    | (.error f, i, deeper, journal) => .stop (.error f) { s with included := i :: deeper, journal }
    | (.ok (), i, deeper, journal) =>
      let s := { s.addRecords (i.state.batch.take room) with journal }
      let i := i.handOn room
      if i.isFinished then .again (s.resume i)
      else .stop (.ok ()) { s with included := i :: deeper }

/-- Where more is to come from the included file, the batch is full: taking turns stops there. -/
theorem full_of_poll {filler : Filler} (fills : filler.Fills) {limit : Nat} {s t : Session}
    (stops : s.poll filler limit = .stop (.ok ()) t) : limit ≤ t.state.batch.length := by
  unfold poll at stops
  split at stops
  · cases stops
  next i deeper open_ =>
    dsimp only at stops
    rcases filled : i.fill filler (limit - s.state.batch.length) deeper s.journal with
      ⟨f | _, i', deeper', journal⟩ <;> rw [filled] at stops
    · cases stops
    dsimp only at stops
    split at stops <;> cases stops
    next unfinished =>
      have full : limit - s.state.batch.length ≤ i'.state.batch.length := by
        rcases Included.full_of_fill fills filled with exhausted | full
        · simp only [Included.isFinished, Included.handOn, exhausted, Bool.true_and,
            List.isEmpty_iff, List.drop_eq_nil_iff] at unfinished
          omega
        · exact full
      simp only [addRecords, List.length_append, List.length_take]
      omega

/-- Reads an entry and processes it. -/
def advance (o : StreamOptions) (s : Session) : Turn :=
  match ChunkReader.next s.reader with
  | (.error f, reader) => .stop (.error f) { s with reader }
  | (.ok e, reader) =>
    let (result, desk) := Desk.process o e ⟨{ s.state with phase := .reading }, s.journal⟩
    let s := { s with reader, state := desk.state, journal := desk.journal }
    match result with
    | .error f => .stop (.error f) s
    | .ok none => .again s
    | .ok (some i) => .again { s with included := [i] }

def turn (o : StreamOptions) (filler : Filler) (limit : Nat) (s : Session) : Turn :=
  if limit ≤ s.state.batch.length then .stop (.ok ()) s
  else match s.state.phase with
  | .done => .stop (.ok ()) s
  | .paused => s.poll filler limit
  | _ => s.advance o

theorem full_of_turn {o : StreamOptions} {filler : Filler} (fills : filler.Fills) {limit : Nat}
    {s t : Session} (stops : s.turn o filler limit = .stop (.ok ()) t) :
    limit ≤ t.state.batch.length ∨ t.state.phase = .done := by
  unfold turn at stops
  split at stops
  · cases stops
    exact .inl ‹_›
  · split at stops
    · cases stops
      exact .inr ‹_›
    · exact .inl (full_of_poll fills stops)
    · unfold advance at stops
      split at stops
      · cases stops
      next e reader _ =>
        rcases done : Desk.process o e ⟨{ s.state with phase := .reading }, s.journal⟩ with
          ⟨result, desk⟩
        rw [done] at stops
        rcases result with f | _ | i <;> cases stops

theorem size_of_poll {filler : Filler} {limit : Nat} {s s' : Session}
    (paused : s.state.phase = .paused) (h : s.poll filler limit = .again s') : s'.size < s.size := by
  unfold poll at h
  split at h
  · cases h
    simp [size, paused]
  · simp only at h
    split at h
    · cases h
    · split at h
      · cases h
        simp [size, paused, resume, addRecords]
      · cases h

theorem size_of_advance {o : StreamOptions} {s s' : Session} (h : s.advance o = .again s') :
    s'.size < s.size := by
  unfold advance at h
  split at h
  · cases h
  next e reader hn =>
    have smaller := ChunkReader.size_next_lt hn
    rcases hp : Desk.process o e ⟨{ s.state with phase := .reading }, s.journal⟩ with ⟨result, desk⟩
    rw [hp] at h
    rcases result with f | _ | i <;> cases h <;> simp only [size] <;> split <;> split <;> omega

/-- A turn that is followed by another one has used something up. -/
theorem size_of_turn {o : StreamOptions} {filler : Filler} {limit : Nat} {s s' : Session}
    (h : s.turn o filler limit = .again s') : s'.size < s.size := by
  unfold turn at h
  split at h
  · cases h
  · split at h
    · cases h
    next paused => exact size_of_poll paused h
    · exact size_of_advance h

/-- Takes turns until the batch is full, the file is done, or something fails. -/
def run (o : StreamOptions) (filler : Filler) (limit : Nat) (s : Session) :
    Except Failure Unit × Session :=
  match _h : s.turn o filler limit with
  | .stop result s => (result, s)
  | .again s => run o filler limit s
termination_by s.size
decreasing_by exact size_of_turn _h

theorem run_of_stop {o : StreamOptions} {filler : Filler} {limit : Nat} {s t : Session}
    {result : Except Failure Unit} (stops : s.turn o filler limit = .stop result t) :
    run o filler limit s = (result, t) := by
  rw [run]
  split
  next stopped =>
    cases stops.symm.trans stopped
    rfl
  next again => cases stops.symm.trans again

theorem run_of_again {o : StreamOptions} {filler : Filler} {limit : Nat} {s t : Session}
    (again : s.turn o filler limit = .again t) : run o filler limit s = run o filler limit t := by
  rw [run]
  split
  next stops => cases again.symm.trans stops
  next further =>
    cases again.symm.trans further
    rfl

theorem fills_run (o : StreamOptions) {filler : Filler} (fills : filler.Fills) :
    Filler.Fills (run o filler) := by
  intro limit s t ran
  induction s using run.induct o filler limit with
  | case1 s result u stops =>
    rw [run_of_stop stops] at ran
    cases ran
    exact full_of_turn fills stops
  | case2 s u again ih =>
    rw [run_of_again again] at ran
    exact ih ran

/-- Fills the batch, after the file header if that has not been read yet. -/
def fillWith (o : StreamOptions) (filler : Filler) : Filler := fun limit s =>
  if s.state.phase = .unopened then
    match ChunkReader.fileHeader s.reader with
    | (.error f, reader) => (.error f, { s with reader })
    | (.ok _, reader) =>
      run o filler limit { s with reader, state := { s.state with phase := .headerRead } }
  else run o filler limit s

theorem fills_fillWith (o : StreamOptions) {filler : Filler} (fills : filler.Fills) :
    Filler.Fills (fillWith o filler) := by
  intro limit s t filled
  unfold fillWith at filled
  split at filled
  · split at filled
    · cases filled
    · exact fills_run o fills limit _ t filled
  · exact fills_run o fills limit s t filled

/-- Refuses to go any deeper. There is no bound on how deep files are included: this stands for what
becomes of files that include each other for ever. -/
def tooDeep : Filler := fun _ s => (.error (.includedTooDeep s.state.file.name), s)

/-- Fills the batch, where files are included up to `depth` deep. -/
def fill (o : StreamOptions) : Nat → Filler
  | 0 => fillWith o tooDeep
  | depth + 1 => fillWith o (fill o depth)

theorem fills_fill (o : StreamOptions) (depth : Nat) : Filler.Fills (fill o depth) := by
  induction depth with
  | zero => exact fills_fillWith o fun _ _ _ refused => by cases refused
  | succ depth ih => exact fills_fillWith o ih

end Session

end ChangeCapture
