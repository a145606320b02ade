import ChangeCapture.LogStream.Records
import ChangeCapture.Proofs.Hierarchy
import ChangeCapture.Proofs.Iteration

/-! Reading comes to an end by itself. Filling a batch is described once more, without a bound on how
deep files include each other; where no file includes itself this comes to an end, with the same
result, and so does handing out one record after the other. -/
namespace ChangeCapture

namespace Session

variable {o : StreamOptions} {depth limit : Nat} {s t : Session}

/-- What a turn leaves to the included file: how many records it is to have, and where it stands. -/
def asks (limit : Nat) (s : Session) : Option (Nat × Session) :=
  match s.included with
  | [] => none
  | i :: deeper =>
    if s.state.phase = .paused ∧ i.exhausted = false ∧
        i.state.batch.length < limit - s.state.batch.length then
      some (limit - s.state.batch.length, s.inner i deeper)
    else none

/-- Filling the batch of a session up to `limit` records comes to an end. Each turn may ask for the
batch of an included file, which has to come to an end by itself, before the next turn. -/
inductive Returns (o : StreamOptions) : Nat → Session → Except Failure Unit × Session → Prop where
  | unreadable {limit s f reader} :
      s.state.phase = .unopened → ChunkReader.fileHeader s.reader = (.error f, reader) →
      Returns o limit s (.error f, { s with reader })
  | header {limit s h reader x} :
      s.state.phase = .unopened → ChunkReader.fileHeader s.reader = (.ok h, reader) →
      Returns o limit { s with reader, state := { s.state with phase := .headerRead } } x →
      Returns o limit s x
  | stop {limit s answer result t} : s.state.phase ≠ .unopened →
      (∀ room inner, s.asks limit = some (room, inner) → Returns o room inner answer) →
      s.turn o (fun _ _ => answer) limit = .stop result t → Returns o limit s (result, t)
  | again {limit s answer t x} : s.state.phase ≠ .unopened →
      (∀ room inner, s.asks limit = some (room, inner) → Returns o room inner answer) →
      s.turn o (fun _ _ => answer) limit = .again t → Returns o limit t x → Returns o limit s x

theorem turn_of_asks {filler filler' : Filler}
    (same : ∀ room inner, s.asks limit = some (room, inner) →
      filler room inner = filler' room inner) :
    s.turn o filler limit = s.turn o filler' limit := by
  unfold turn
  by_cases full : limit ≤ s.state.batch.length
  · rw [if_pos full, if_pos full]
  rw [if_neg full, if_neg full]
  cases phase : s.state.phase with
  | unopened | headerRead | reading | done => rfl
  | paused =>
    unfold poll
    cases open_ : s.included with
    | nil => rfl
    | cons i deeper =>
      have filled : i.fill filler (limit - s.state.batch.length) deeper s.journal =
          i.fill filler' (limit - s.state.batch.length) deeper s.journal := by
        unfold Included.fill
        by_cases idle : (i.exhausted || limit - s.state.batch.length ≤ i.state.batch.length) = true
        · rw [if_pos idle, if_pos idle]
        · rw [if_neg idle, if_neg idle]
          simp only [Bool.or_eq_true, decide_eq_true_eq, not_or, Bool.not_eq_true,
            Nat.not_le] at idle
          have asked : s.asks limit = some (limit - s.state.batch.length, s.inner i deeper) := by
            unfold asks
            rw [open_]
            exact if_pos ⟨phase, idle⟩
          rw [show filler (limit - s.state.batch.length) ⟨i.toOpenFile, deeper, s.journal⟩ =
            filler' (limit - s.state.batch.length) ⟨i.toOpenFile, deeper, s.journal⟩ from
              same _ _ asked]
      dsimp only
      rw [filled]

theorem Returns.unique {x y : Except Failure Unit × Session} (first : Returns o limit s x)
    (second : Returns o limit s y) : x = y := by
  induction first generalizing y with
  | unreadable unopened failed =>
    cases second with
    | unreadable _ failed' =>
      cases failed.symm.trans failed'
      rfl
    | header _ read => cases failed.symm.trans read
    | stop opened | again opened => exact absurd unopened opened
  | header unopened read _ ih =>
    cases second with
    | unreadable _ failed => cases read.symm.trans failed
    | header _ read' rest =>
      cases read.symm.trans read'
      exact ih rest
    | stop opened | again opened => exact absurd unopened opened
  | stop opened _ stops ihAnswer =>
    cases second with
    | unreadable unopened | header unopened => exact absurd unopened opened
    | stop _ asked stops' =>
      rw [turn_of_asks fun room inner asks => ihAnswer room inner asks (asked room inner asks)]
        at stops
      cases stops.symm.trans stops'
      rfl
    | again _ asked again _ =>
      rw [turn_of_asks fun room inner asks => ihAnswer room inner asks (asked room inner asks)]
        at stops
      cases stops.symm.trans again
  | again opened _ again _ ihAnswer ih =>
    cases second with
    | unreadable unopened | header unopened => exact absurd unopened opened
    | stop _ asked stops =>
      rw [turn_of_asks fun room inner asks => ihAnswer room inner asks (asked room inner asks)]
        at again
      cases again.symm.trans stops
    | again _ asked again' rest =>
      rw [turn_of_asks fun room inner asks => ihAnswer room inner asks (asked room inner asks)]
        at again
      cases again.symm.trans again'
      exact ih rest

variable {retried : Prop} {n : Nat}

/-- What is asked for is asked of an included file of a smaller rank. -/
theorem Descends.asked (descends : s.Descends retried o n) (nested : s.WellNested) {room : Nat}
    {inner : Session} (asks : s.asks limit = some (room, inner)) :
    inner.WellNested ∧ ∃ m < n, inner.Descends retried o m := by
  unfold Session.asks at asks
  cases open_ : s.included with
  | nil =>
    rw [open_] at asks
    cases asks
  | cons i deeper =>
    rw [open_] at asks
    obtain ⟨⟨_, running, _⟩, same⟩ := Option.ite_none_right_eq_some.mp asks
    cases same
    exact ⟨(nested.of_included open_).2.2, descends.inner open_ running⟩

/-- In files of ranks below `n`, filling comes to an end in what `filler` gives. -/
def Answers (retried : Prop) (o : StreamOptions) (n : Nat) (filler : Filler) : Prop :=
  ∀ room inner, inner.WellNested → ∀ m < n, inner.Descends retried o m →
    Returns o room inner (filler room inner)

theorem Descends.answered {filler : Filler} (descends : s.Descends retried o n)
    (nested : s.WellNested) (limit : Nat) (answers : Answers retried o n filler) :
    ∃ answer, (∀ room inner, s.asks limit = some (room, inner) → Returns o room inner answer) ∧
      s.turn o filler limit = s.turn o (fun _ _ => answer) limit := by
  cases asks : s.asks limit with
  | none => exact ⟨(.ok (), s), nofun, turn_of_asks (by rw [asks]; nofun)⟩
  | some call =>
    obtain ⟨room, inner⟩ := call
    obtain ⟨nestedInner, m, less, further⟩ := descends.asked nested asks
    refine ⟨filler room inner, ?_, turn_of_asks ?_⟩
    · rintro _ _ ⟨⟩
      exact answers room inner nestedInner m less further
    · rw [asks]
      rintro _ _ ⟨⟩
      rfl

/-- Turns come to an end, since each one uses something up. -/
theorem returns_run {filler : Filler} (acyclic : o.Acyclic retried) (serves : Serves o depth filler)
    (answers : Answers retried o n filler) (limit : Nat) (nested : s.WellNested)
    (opened : s.state.phase ≠ .unopened) (descends : s.Descends retried o n) :
    Returns o limit s (run o filler limit s) := by
  induction s using run.induct o filler limit with
  | case1 s result t stops =>
    obtain ⟨answer, asked, same⟩ := descends.answered nested limit answers
    rw [run_of_stop stops]
    exact .stop opened asked (same.symm.trans stops)
  | case2 s t again ih =>
    obtain ⟨answer, asked, same⟩ := descends.answered nested limit answers
    have turned := filled_turn serves limit nested opened
    rw [again] at turned
    obtain ⟨ps, path⟩ := turned
    have rest := ih (path.wellNested nested) (path.opened opened)
      (path.descends acyclic nested descends)
    rw [run_of_again again]
    exact .again opened asked (same.symm.trans again) rest

theorem returns_fillWith {filler : Filler} (acyclic : o.Acyclic retried)
    (serves : Serves o depth filler) (answers : Answers retried o n filler) (limit : Nat)
    (nested : s.WellNested) (descends : s.Descends retried o n) :
    Returns o limit s (fillWith o filler limit s) := by
  unfold fillWith
  by_cases unopened : s.state.phase = .unopened
  · rw [if_pos unopened]
    rcases header : ChunkReader.fileHeader s.reader with ⟨f | h, reader⟩
    · exact .unreadable unopened header
    · have step : Step o depth s [] _ := .header unopened header
      exact .header unopened header (returns_run acyclic serves answers limit
        (step.wellNested nested) nofun (step.descends acyclic nested descends))
  · rw [if_neg unopened]
    exact returns_run acyclic serves answers limit nested unopened descends

/-- A file of some rank never asks for more depth than that. -/
theorem returns_fill (acyclic : o.Acyclic retried) (within : n ≤ depth) (limit : Nat)
    (nested : s.WellNested) (descends : s.Descends retried o n) :
    Returns o limit s (fill o depth limit s) := by
  induction depth generalizing n limit s with
  | zero =>
    have answers : Answers retried o n tooDeep := fun _ _ _ m less =>
      absurd (Nat.lt_of_lt_of_le less within) (Nat.not_lt_zero m)
    exact returns_fillWith acyclic serves_tooDeep answers limit nested descends
  | succ depth ih =>
    have serves : Serves o (depth + 1) (fill o depth) :=
      serves_of_filled fun limit _ nested => filled_fill depth limit nested
    have answers : Answers retried o n (fill o depth) := fun room _ nested m less =>
      ih (Nat.le_of_lt_succ (Nat.lt_of_lt_of_le less within)) room nested
    exact returns_fillWith acyclic serves answers limit nested descends

end Session

namespace LogStream

variable {s t : LogStream} {j k : Journal} {o : StreamOptions} {retried : Prop}

/-- Reading a batch comes to an end without a bound on how deep files include each other, in what
`read` leads to and in nothing else. -/
def Ends (s : LogStream) (j : Journal) : Prop :=
  ∀ x, Session.Returns s.options s.options.config.effectiveBatchSize (s.session j) x ↔
    x = ((s.read j).1, (s.read j).2.1.session (s.read j).2.2)

/-- Files are open within each other as the ranks of files allow. -/
structure Sound (retried : Prop) (s : LogStream) (j : Journal) : Prop where
  nested : (s.session j).WellNested
  descends : (s.session j).Descends retried s.options (depth s.options)

theorem Sound.ends (sound : Sound retried s j) (acyclic : s.options.Acyclic retried) :
    s.Ends j := by
  have returns := Session.returns_fill acyclic (Nat.le_refl _)
    s.options.config.effectiveBatchSize sound.nested sound.descends
  refine fun x => ⟨fun other => other.unique returns, ?_⟩
  rintro rfl
  exact returns

/-- A read keeps the order, unless it fails for good and is not to be repeated. -/
theorem Sound.read (sound : Sound retried s j) (acyclic : s.options.Acyclic retried)
    {result : Except Failure Unit} (read : s.read j = (result, t, k))
    (steady : ∀ f, result = .error f → retried ∨ f = .streamClosed) : Sound retried t k := by
  obtain ⟨nested, descends⟩ := sound
  obtain ⟨options, filled⟩ := read_filled read nested
  rw [← options] at acyclic descends filled
  cases filled with
  | ok path _ => exact ⟨path.wellNested nested, path.descends acyclic nested descends⟩
  | error path fails =>
    have before := path.wellNested nested
    refine ⟨fails.wellNested before, ?_⟩
    rcases steady _ rfl with again | rfl
    · exact fails.descends again before (path.descends acyclic nested descends)
    · obtain ⟨-, reads, reader, -, same⟩ := fails.of_streamClosed
      rw [same]
      exact Session.descends_start acyclic (before.alone_of_reads reads)

theorem Sound.flush (sound : Sound retried s j) : Sound retried s.flush.1 j :=
  ⟨sound.nested, sound.descends.congr rfl rfl rfl⟩

theorem Sound.flushTransactions (sound : Sound retried s j) :
    Sound retried (s.flushTransactions j).1 (s.flushTransactions j).2 := by
  have phase := phase_flushTransactions s j
  refine ⟨?_, sound.descends.congr rfl phase rfl⟩
  show Nested (s.flushTransactions j).1.state.phase s.included
  rw [phase]
  exact sound.nested

end LogStream

namespace Records

open LogStream

variable {r : Records} {o : StreamOptions} {retried : Prop}

/-- As long as there is more to read, the stream may be read on. -/
def Sound (retried : Prop) (o : StreamOptions) (r : Records) : Prop :=
  r.finished = false → LogStream.Sound retried r.stream r.journal ∧ r.stream.options = o

theorem Sound.pop (sound : r.Sound retried o) : r.pop.2.Sound retried o := by
  unfold Records.pop
  split <;> exact sound

theorem Sound.readOn (sound : r.Sound retried o) (running : r.finished = false)
    (acyclic : o.Acyclic retried) : r.readOn.Sound retried o := by
  obtain ⟨whole, rfl⟩ := sound running
  unfold Records.readOn
  rcases read : r.stream.read r.journal with ⟨result, t, k⟩
  have options : t.options = r.stream.options := (read_filled read whole.nested).1
  dsimp only
  split
  · split
    · exact nofun
    · exact fun _ => ⟨whole.read acyclic read nofun, options⟩
  · exact nofun
  · exact nofun

theorem Sound.next (sound : r.Sound retried o) (acyclic : o.Acyclic retried) :
    r.next.2.Sound retried o := by
  have popped := sound.pop
  unfold Records.next
  rcases found : r.pop with ⟨_ | item, r'⟩ <;> rw [found] at popped <;> dsimp only
  · by_cases finished : r'.finished = true
    · rw [if_pos finished]
      exact popped
    · rw [if_neg finished]
      have further := popped.readOn (by simpa using finished) acyclic
      refine Sound.pop fun running => ?_
      obtain ⟨whole, options⟩ := further running
      exact ⟨whole.flush, options⟩
  · exact popped

theorem Sound.take (sound : r.Sound retried o) (acyclic : o.Acyclic retried) (count : Nat) :
    (r.take count).2.Sound retried o := by
  induction count generalizing r with
  | zero => exact sound
  | succ count ih =>
    have next := sound.next acyclic
    unfold Records.take
    rcases found : r.next with ⟨_ | item, r'⟩ <;> rw [found] at next
    · exact next
    · exact ih next

end Records

namespace Client

open LogStream

variable {file : LogFile} {source : Source} {o : StreamOptions} {cache : Cache} {s : LogStream}
variable {retried : Prop}

end Client

end ChangeCapture
