import ChangeCapture.Proofs.Draining
import ChangeCapture.Proofs.Flow

/-! Sources that report the end of their input for now and go on later. A pause between two entries
closes the stream where it stands, with nothing consumed and nothing emitted; a stream that is read
on after each pause comes to what it comes to without them, and delivers the same records but for
those that a failing included file keeps back. -/
namespace ChangeCapture

namespace Flow

/-- The flow of a file behind its head, and the same with pauses between the entries. -/
inductive Pauses : Flow → Flow → Prop where
  | same {f} : .pause ∉ f → Pauses f f
  | pause {f g} : Pauses f g → Pauses f (.pause :: g)
  | entry {bytes f g} : ChunkReader.IsFrame bytes → Pauses f g →
      Pauses (ofBytes bytes ++ f) (ofBytes bytes ++ g)

/-- The flow of a file, and the same with pauses between the entries. -/
inductive PausesAtEntries : Flow → Flow → Prop where
  | same {f} : .pause ∉ f → PausesAtEntries f f
  | header {bytes f g} : bytes.length = ChunkReader.headerSize → Pauses f g →
      PausesAtEntries (ofBytes bytes ++ f) (ofBytes bytes ++ g)

theorem Pauses.steady {f g : Flow} (pauses : Pauses f g) : Pauses f f := by
  induction pauses with
  | same steady => exact .same steady
  | pause _ ih => exact ih
  | entry frame _ ih => exact .entry frame ih

theorem PausesAtEntries.steady {f g : Flow} (pauses : PausesAtEntries f g) :
    PausesAtEntries f f := by
  cases pauses with
  | same steady => exact .same steady
  | header size pauses => exact .header size pauses.steady

theorem ofBytes_frame {bytes : List UInt8} (frame : ChunkReader.IsFrame bytes) (f : Flow) :
    ∃ b g, ofBytes bytes ++ f = .byte b :: g := by
  obtain ⟨length, body, rfl, -⟩ := frame
  exact ⟨_, _, rfl⟩

theorem Pauses.of_pause {f g : Flow} (pauses : Pauses f (.pause :: g)) : Pauses f g := by
  generalize paused : SourceEvent.pause :: g = h at pauses
  cases pauses with
  | same steady =>
    rw [← paused] at steady
    exact absurd List.mem_cons_self steady
  | pause pauses =>
    cases paused
    exact pauses
  | entry frame =>
    obtain ⟨b, h, first⟩ := ofBytes_frame frame _
    rw [first] at paused
    cases paused

theorem Pauses.nil {f : Flow} (pauses : Pauses f []) : f = [] := by
  generalize ended : ([] : Flow) = g at pauses
  cases pauses with
  | same => rfl
  | pause => cases ended
  | entry frame =>
    obtain ⟨b, g, first⟩ := ofBytes_frame frame _
    rw [first] at ended
    cases ended

/-- The number of bytes in a flow. -/
def byteCount (f : Flow) : Nat := (f.filter fun e => e matches .byte _).length

@[simp] theorem byteCount_append (f g : Flow) : byteCount (f ++ g) = byteCount f + byteCount g := by
  simp [byteCount]

@[simp] theorem byteCount_ofBytes (bytes : List UInt8) : byteCount (ofBytes bytes) = bytes.length := by
  induction bytes with
  | nil => rfl
  | cons b bytes ih => exact congrArg (· + 1) ih

end Flow

namespace ChunkReader

/-- Readers that have come equally far, the second of which may pause before more entries. -/
structure Resumes (r r' : ChunkReader) : Prop where
  offset : r.offset = r'.offset
  flow : r.source.flow.Pauses r'.source.flow

/-- Where the second reader does not pause, both read the same. -/
theorem next_resumes {r r' : ChunkReader} (resumes : Resumes r r')
    (open_ : (next r').1 ≠ .error .streamClosed) :
    (next r).1 = (next r').1 ∧ (next r).2.offset = (next r').2.offset ∧
      ((next r).1.isOk → Resumes (next r).2 (next r').2) := by
  obtain ⟨offset, flow⟩ := resumes
  generalize hf : r.source.flow = f at flow
  generalize hf' : r'.source.flow = f' at flow
  cases flow with
  | same steady =>
    obtain ⟨result, alike⟩ := level_alike.next r r' ⟨offset, hf.trans hf'.symm⟩
    refine ⟨result, alike.offset, fun ok => ⟨alike.offset, ?_⟩⟩
    rw [← alike.flow]
    refine .same fun more => steady ?_
    rcases read : next r with ⟨_ | e, m⟩ <;> rw [read] at ok more
    · cases ok
    obtain ⟨bytes, -, taken⟩ := takes_next read
    rw [← hf, taken]
    exact List.mem_append_right _ more
  | pause =>
    obtain ⟨m, closed⟩ := next_closes (.inr ⟨_, hf'⟩)
    exact absurd (congrArg Prod.fst closed) open_
  | entry frame pauses =>
    obtain ⟨result, moved, left, -⟩ := next_frame frame ⟨offset, hf, hf'⟩
    refine ⟨result, moved, fun ok => ⟨moved, ?_⟩⟩
    obtain ⟨behind, behind'⟩ := left ok
    rw [behind, behind']
    exact pauses

/-- Where the second reader comes to a pause or to its end, the first one need not read on. -/
theorem closed_resumes {r r' m : ChunkReader} (resumes : Resumes r r')
    (closed : next r' = (.error .streamClosed, m)) : Resumes r m := by
  obtain ⟨kept, left⟩ := next_closed closed
  refine ⟨resumes.offset.trans kept.symm, ?_⟩
  rcases left with ⟨ended, ended'⟩ | pause
  · rw [ended', ← ended]
    exact resumes.flow
  · exact .of_pause (pause ▸ resumes.flow)

theorem fileHeader_resumes {r r' : ChunkReader} (offset : r.offset = r'.offset)
    (pauses : r.source.flow.PausesAtEntries r'.source.flow) :
    (fileHeader r).1 = (fileHeader r').1 ∧
      (fileHeader r).2.offset = (fileHeader r').2.offset ∧
      ((fileHeader r).1.isOk → Resumes (fileHeader r).2 (fileHeader r').2) := by
  generalize hf : r.source.flow = f at pauses
  generalize hf' : r'.source.flow = f' at pauses
  cases pauses with
  | same steady =>
    obtain ⟨result, alike⟩ := level_alike.fileHeader r r' ⟨offset, hf.trans hf'.symm⟩
    refine ⟨result, alike.offset, fun ok => ⟨alike.offset, ?_⟩⟩
    rw [← alike.flow]
    refine .same fun more => steady ?_
    rcases read : fileHeader r with ⟨_ | h, m⟩ <;> rw [read] at ok more
    · cases ok
    obtain ⟨-, bytes, -, taken⟩ := takes_fileHeader _ _ _ read
    rw [← hf, taken]
    exact List.mem_append_right _ more
  | @header bytes f g size pauses =>
    obtain ⟨result, k, -, moved, left⟩ :=
      within_fileHeader _ _ _ _ _ (Nat.le_of_eq size.symm) ⟨offset, hf, hf'⟩
    refine ⟨result, left.offset, fun ok => ⟨left.offset, ?_⟩⟩
    rcases read : fileHeader r with ⟨_ | h, m⟩
    · rw [read] at ok
      cases ok
    obtain ⟨taken, -⟩ := takes_fileHeader _ _ _ read
    rw [read] at moved
    obtain rfl : k = bytes.length := by
      dsimp only at moved
      omega
    have behind := left.flow
    have behind' := left.flow'
    rw [List.drop_length] at behind behind'
    rw [← read, behind, behind']
    exact pauses

/-- The second reader stands further on in the flow of the first, as many bytes as the offset says. -/
def Reaches (r r' : ChunkReader) : Prop :=
  ∃ taken : Flow, r.source.flow = taken ++ r'.source.flow ∧
    r'.offset = r.offset + taken.byteCount

theorem Reaches.refl (r : ChunkReader) : Reaches r r := ⟨[], rfl, rfl⟩

theorem Reaches.trans {r m r' : ChunkReader} (first : Reaches r m) (rest : Reaches m r') :
    Reaches r r' := by
  obtain ⟨taken, flow, offset⟩ := first
  obtain ⟨more, flow', offset'⟩ := rest
  refine ⟨taken ++ more, by rw [flow, flow', List.append_assoc], ?_⟩
  rw [offset', offset, Flow.byteCount_append, Nat.add_assoc]

theorem Reaches.le {r r' : ChunkReader} (reaches : Reaches r r') :
    r'.source.flow.length ≤ r.source.flow.length := by
  obtain ⟨taken, flow, -⟩ := reaches
  rw [flow, List.length_append]
  omega

theorem reaches_of_bytes {r r' : ChunkReader} {bytes : List UInt8}
    (offset : r'.offset = r.offset + bytes.length)
    (flow : r.source.flow = Flow.ofBytes bytes ++ r'.source.flow) : Reaches r r' :=
  ⟨Flow.ofBytes bytes, flow, by rw [offset, Flow.byteCount_ofBytes]⟩

theorem reaches_next {r r' : ChunkReader} {e : Entry} (read : next r = (.ok e, r')) :
    Reaches r r' := by
  obtain ⟨bytes, offset, flow⟩ := takes_next read
  exact reaches_of_bytes offset flow

theorem reaches_fileHeader {r r' : ChunkReader} {h : FileHeader}
    (read : fileHeader r = (.ok h, r')) : Reaches r r' := by
  obtain ⟨offset, bytes, size, flow⟩ := takes_fileHeader _ _ _ read
  exact reaches_of_bytes (by rw [offset, size]) flow

theorem reaches_closed {r r' : ChunkReader} (closed : next r = (.error .streamClosed, r')) :
    Reaches r r' := by
  obtain ⟨offset, ⟨ended, ended'⟩ | pause⟩ := next_closed closed
  · exact ⟨[], by rw [ended, ended']; rfl, offset⟩
  · exact ⟨[.pause], pause, offset⟩

end ChunkReader

theorem Included.bare_eq_nil {included : List Included} : bare included = [] ↔ included = [] := by
  cases included <;> simp [bare]

/-- The failure that a reading comes to, if it does not come to its end. -/
def Outcome.failure (x : Outcome) : Option Failure :=
  match x.result with
  | .ok () => none
  | .error f => if f.isFatal then some f else none

namespace Session

open ChunkReader (Reaches)

variable {o : StreamOptions} {depth : Nat}

/-- Sessions that differ in nothing but their readers, which have come equally far. -/
structure Level (s s' : Session) : Prop where
  same : s' = { s with reader := s'.reader }
  offset : s.reader.offset = s'.reader.offset

/-- Sessions that differ in nothing but the pauses before the entries to come. -/
structure Resumes (s s' : Session) : Prop extends Level s s' where
  unopened : s.state.phase = .unopened →
    s.reader.source.flow.PausesAtEntries s'.reader.source.flow
  opened : s.state.phase ≠ .unopened → s.reader.source.flow.Pauses s'.reader.source.flow

theorem Level.state {s s' : Session} (level : Level s s') : s'.state = s.state := by rw [level.same]

theorem Level.included {s s' : Session} (level : Level s s') : s'.included = s.included := by
  rw [level.same]

theorem Level.wellNested {s s' : Session} (level : Level s s') (nested : s.WellNested) :
    s'.WellNested := by
  unfold WellNested
  rw [level.state, level.included]
  exact nested

theorem Level.waiting {s s' : Session} (level : Level s s') : s'.waiting = s.waiting := by
  rw [level.same]
  rfl

theorem Level.bare_state {s s' : Session} (level : Level s s') (empty : s'.state.batch = []) :
    s.bare.state = s'.state := by
  show { s.state with batch := [] } = s'.state
  rw [← level.state, ← empty]

theorem Level.journal {s s' : Session} (level : Level s s') : s'.journal = s.journal := by
  rw [level.same]

theorem Resumes.reader {s s' : Session} (resumes : Resumes s s')
    (opened : s.state.phase ≠ .unopened) : ChunkReader.Resumes s.reader s'.reader :=
  ⟨resumes.offset, resumes.opened opened⟩

theorem resumes_reader {s : Session} {r r' : ChunkReader} (resumes : ChunkReader.Resumes r r')
    (opened : s.state.phase ≠ .unopened) :
    Resumes { s with reader := r } { s with reader := r' } :=
  ⟨⟨rfl, resumes.offset⟩, fun unopened => absurd unopened opened, fun _ => resumes.flow⟩

theorem Resumes.keep {s s' : Session} (resumes : Resumes s s') (f : Session → Session)
    (reader : ∀ (s : Session) r, f { s with reader := r } = { f s with reader := r })
    (phase : (f s).state.phase = .unopened ↔ s.state.phase = .unopened) :
    Resumes (f s) (f s') := by
  have kept (s : Session) : (f s).reader = s.reader := congrArg (fun s => s.reader) (reader s s.reader)
  refine ⟨⟨?_, ?_⟩, fun unopened => ?_, fun opened => ?_⟩
  · rw [kept, resumes.same, reader]
  · rw [kept, kept]
    exact resumes.offset
  · rw [kept, kept]
    exact resumes.unopened (phase.mp unopened)
  · rw [kept, kept]
    exact resumes.opened fun unopened => opened (phase.mpr unopened)

theorem Step.resumes {s s' t' : Session} {ps : List Processed} (step : Step o depth s' ps t')
    (resumes : Resumes s s') (nested : s.WellNested) :
    ∃ t, Step o depth s ps t ∧ Resumes t t' := by
  have same := resumes.same
  generalize s'.reader = r' at same
  subst same
  cases step with
  | @header _ _ h reader unopened read =>
    obtain ⟨result, -, left⟩ :=
      ChunkReader.fileHeader_resumes resumes.offset (resumes.unopened unopened)
    rw [read] at result left
    rcases read' : ChunkReader.fileHeader s.reader with ⟨_ | h', m⟩ <;> rw [read'] at result left
    · cases result
    · exact ⟨_, .header unopened read', resumes_reader
        (s := { s with state := { s.state with phase := .headerRead } }) (left rfl) nofun⟩
  | @entry _ _ e reader opened reads read done =>
    obtain ⟨result, -, left⟩ := ChunkReader.next_resumes
      (resumes.reader (Phase.opened_of_readsEntries reads)) (by rw [read]; nofun)
    rw [read] at result left
    rcases read' : ChunkReader.next s.reader with ⟨_ | e', m⟩ <;> rw [read'] at result left
    · cases result
    · cases result
      refine ⟨_, .entry reads read' done, ?_⟩
      exact resumes_reader (s := s.afterEntry m ((s.processing e).after o) opened) (left rfl)
        (Processed.opened_after o _ rfl done)
  | @included depth _ i deeper _ t open_ running inner =>
    exact ⟨_, .included open_ running inner,
      resumes.keep (fun s => s.outer i t) (fun _ _ => rfl) Iff.rfl⟩
  | @footer depth _ i open_ running done =>
    exact ⟨_, .footer open_ running done, resumes.keep
      (fun s => { s with included := [{ i with exhausted := true }] }) (fun _ _ => rfl) Iff.rfl⟩
  | @close depth _ i reader open_ running reads closed =>
    exact ⟨_, .close open_ running reads closed, resumes.keep
      (fun s => { s with included := [{ i with reader, exhausted := true }] }) (fun _ _ => rfl)
      Iff.rfl⟩
  | @handOn _ _ i deeper count open_ =>
    exact ⟨_, .handOn count open_, resumes.keep (fun s =>
      { s.addRecords (i.state.batch.take count) with included := i.handOn count :: deeper })
      (fun _ _ => rfl) Iff.rfl⟩
  | @resume _ _ i open_ finished =>
    have paused : s.state.phase = .paused := (nested.of_included open_).1
    exact ⟨_, .resume open_ finished, resumes.keep (fun s => s.resume i) (fun _ _ => rfl)
      ⟨nofun, fun unopened => absurd unopened (Phase.paused_opened paused)⟩⟩

theorem Path.resumes {s s' t' : Session} {ps : List Processed} (path : Path o depth s' ps t')
    (resumes : Resumes s s') (nested : s.WellNested) :
    ∃ t, Path o depth s ps t ∧ Resumes t t' := by
  induction path generalizing s with
  | nil => exact ⟨s, .nil, resumes⟩
  | cons step _ ih =>
    obtain ⟨m, first, resumes⟩ := step.resumes resumes nested
    obtain ⟨t, rest, resumes⟩ := ih resumes (first.wellNested nested)
    exact ⟨t, .cons first rest, resumes⟩

theorem Fails.resumes {s s' t' : Session} {ps : List Processed} {f : Failure}
    (fails : Fails o depth s' ps f t') (resumes : Resumes s s') (lasting : f ≠ .streamClosed) :
    ∃ t, Fails o depth s ps f t ∧ Level t t' := by
  have same := resumes.same
  have offset := resumes.offset
  generalize s'.reader = r' at same offset
  subst same
  cases fails with
  | @header _ _ _ reader unopened failed =>
    obtain ⟨result, moved, -⟩ :=
      ChunkReader.fileHeader_resumes offset (resumes.unopened unopened)
    rw [failed] at result moved
    rcases failed' : ChunkReader.fileHeader s.reader with ⟨_, m⟩
    rw [failed'] at result moved
    obtain rfl := result
    exact ⟨_, .header unopened failed', rfl, moved⟩
  | @next _ _ _ reader reads failed =>
    obtain ⟨result, moved, -⟩ := ChunkReader.next_resumes
      (resumes.reader (Phase.opened_of_readsEntries reads))
      (by rw [failed]; exact fun closed => lasting (Except.error.inj closed))
    rw [failed] at result moved
    rcases failed' : ChunkReader.next s.reader with ⟨_, m⟩
    rw [failed'] at result moved
    obtain rfl := result
    exact ⟨_, .next reads failed', rfl, moved⟩
  | @entry _ _ e reader _ reads read failed =>
    obtain ⟨result, moved, -⟩ := ChunkReader.next_resumes
      (resumes.reader (Phase.opened_of_readsEntries reads)) (by rw [read]; nofun)
    rw [read] at result moved
    rcases read' : ChunkReader.next s.reader with ⟨_, m⟩
    rw [read'] at result moved
    obtain rfl := result
    exact ⟨_, .entry reads read' failed, rfl, moved⟩
  | tooDeep open_ running => exact ⟨_, .tooDeep open_ running, rfl, offset⟩
  | included open_ running lasting inner =>
    exact ⟨_, .included open_ running lasting inner, rfl, offset⟩

/-- A pause leaves everything as it was, but that it is gone. -/
theorem Fails.closed {s t : Session} {ps : List Processed}
    (fails : Fails o depth s ps .streamClosed t) :
    t = { s with reader := t.reader } ∧ t.reader.offset = s.reader.offset ∧
      (s.reader.source.flow = [] ∧ t.reader.source.flow = [] ∨
        s.reader.source.flow = .pause :: t.reader.source.flow) := by
  obtain ⟨-, -, reader, closed, rfl⟩ := fails.of_streamClosed
  exact ⟨rfl, ChunkReader.next_closed closed⟩

theorem Fails.reaches {s t : Session} {ps : List Processed}
    (fails : Fails o depth s ps .streamClosed t) : Reaches s.reader t.reader := by
  obtain ⟨-, -, reader, closed, rfl⟩ := fails.of_streamClosed
  exact ChunkReader.reaches_closed closed

theorem Fails.closed_resumes {s s' t' : Session} {ps : List Processed}
    (fails : Fails o depth s' ps .streamClosed t') (resumes : Resumes s s') : Resumes s t' := by
  have same := resumes.same
  generalize s'.reader = r' at same
  subst same
  obtain ⟨-, reads, reader, closed, rfl⟩ := fails.of_streamClosed
  have open_ := Phase.opened_of_readsEntries reads
  exact resumes_reader (ChunkReader.closed_resumes (resumes.reader open_) closed) open_

theorem Step.reaches {s t : Session} {ps : List Processed} (step : Step o depth s ps t) :
    Reaches s.reader t.reader := by
  cases step with
  | header _ read => exact ChunkReader.reaches_fileHeader read
  | entry _ read _ => exact ChunkReader.reaches_next read
  | included | footer | close | handOn | resume => exact .refl _

theorem Path.reaches {s t : Session} {ps : List Processed} (path : Path o depth s ps t) :
    Reaches s.reader t.reader := by
  induction path with
  | nil => exact .refl _
  | cons step _ ih => exact step.reaches.trans ih

/-- A session that has got on in the reading of another one, some records of which were taken. -/
structure Follows (o : StreamOptions) (depth : Nat) (s : Session) (taken : List DomainRecord)
    (ps : List Processed) (t : Session) : Prop where
  nested : t.WellNested
  decode : decode o depth s.bare = (decode o depth t.bare).after ps
  waiting : taken ++ t.waiting = s.waiting ++ Processed.allRecords o ps

theorem Follows.refl {s : Session} (nested : s.WellNested) : Follows o depth s [] [] s :=
  ⟨nested, rfl, by simp⟩

theorem Follows.path {s t u : Session} {taken : List DomainRecord} {ps qs : List Processed}
    (follows : Follows o depth s taken ps t) (path : Path o depth t qs u) :
    Follows o depth s taken (ps ++ qs) u := by
  obtain ⟨decode, waiting⟩ := path.continues follows.nested
  refine ⟨path.wellNested follows.nested, ?_, ?_⟩
  · rw [follows.decode, decode, Outcome.after_after]
  · rw [waiting, ← List.append_assoc, follows.waiting, List.append_assoc,
      Processed.allRecords_append]

/-- The session once the records of its batch were taken. -/
def emptied (s : Session) : Session := { s with state := { s.state with batch := [] } }

theorem Follows.emptied {s t : Session} {taken : List DomainRecord} {ps : List Processed}
    (follows : Follows o depth s taken ps t) :
    Follows o depth s (taken ++ t.state.batch) ps t.emptied := by
  refine ⟨follows.nested, follows.decode, ?_⟩
  rw [← follows.waiting]
  simp [Session.emptied, Session.waiting]

theorem Follows.decoded {s t : Session} {taken : List DomainRecord} {ps : List Processed}
    (follows : Follows o depth s taken ps t) :
    taken ++ (t.waiting ++ (Session.decode o depth t.bare).records o) =
      s.waiting ++ (Session.decode o depth s.bare).records o := by
  rw [follows.decode, Outcome.records_after, ← List.append_assoc, follows.waiting,
    List.append_assoc]

/-- A session that has got to the end of the reading of another one, or to where it fails. -/
structure Ends (o : StreamOptions) (depth : Nat) (s : Session) (taken : List DomainRecord)
    (failure : Option Failure) (t : Session) : Prop where
  session : (Session.decode o depth s.bare).session = t.bare
  result : (Session.decode o depth s.bare).failure = failure
  records : taken ++ t.waiting = s.waiting ++ (Session.decode o depth s.bare).records o
  alone : failure = none → t.included = []

theorem Ends.emptied {s t : Session} {taken : List DomainRecord} {failure : Option Failure}
    (ends : Ends o depth s taken failure t) :
    Ends o depth s (taken ++ t.state.batch) failure t.emptied := by
  refine ⟨ends.session, ends.result, ?_, ends.alone⟩
  rw [← ends.records]
  simp [Session.emptied, Session.waiting]

theorem Follows.done {s t : Session} {taken : List DomainRecord} {ps : List Processed}
    (follows : Follows o depth s taken ps t) (done : t.state.phase = .done) :
    Ends o depth s taken none t := by
  have ended : Session.decode o depth t.bare = ⟨[], .ok (), t.bare⟩ := decode_done done
  have alone := follows.nested.included_nil (by rw [done]; nofun)
  have decoded := follows.decoded
  refine ⟨?_, ?_, ?_, fun _ => alone⟩
  · rw [follows.decode, ended]
    rfl
  · rw [follows.decode, ended]
    rfl
  · rw [← decoded, ended]
    simp [Outcome.records]

theorem Follows.ended {s t : Session} {taken : List DomainRecord} {ps : List Processed}
    (follows : Follows o depth s taken ps t) (reads : t.state.phase.readsEntries)
    (nothing : t.reader.source.flow = []) :
    ∃ u, Ends o depth s taken none u ∧ Level u t := by
  obtain ⟨reader, closed⟩ := ChunkReader.next_closes (.inl nothing)
  have stops : Fails o depth t [] .streamClosed { t with reader } := .next reads closed
  obtain ⟨decode, waiting⟩ := stops.stops follows.nested
  have decoded := follows.decoded
  refine ⟨{ t with reader }, ⟨?_, ?_, ?_, fun _ => follows.nested.alone_of_reads reads⟩, rfl,
    (ChunkReader.next_closed closed).1⟩
  · rw [follows.decode, decode]
    rfl
  · rw [follows.decode, decode]
    rfl
  · rw [← decoded, decode, waiting]
    simp [Outcome.records]

theorem Follows.failed {s t u : Session} {taken : List DomainRecord} {ps qs : List Processed}
    {f : Failure} (follows : Follows o depth s taken ps t) (fails : Fails o depth t qs f u)
    (lasting : f ≠ .streamClosed) : Ends o depth s taken (some f) u := by
  obtain ⟨decode, waiting⟩ := fails.stops follows.nested
  have decoded := follows.decoded
  refine ⟨?_, ?_, ?_, nofun⟩
  · rw [follows.decode, decode]
    rfl
  · rw [follows.decode, decode]
    simp [Outcome.failure, Outcome.after, Failure.isFatal, lasting]
  · rw [← decoded, decode, waiting]
    rfl

end Session

namespace LogStream

/-- The ways of a stream that is read, emptied, and read on where it was closed. -/
inductive Driving (s : LogStream) (j : Journal) :
    List DomainRecord → LogStream → Journal → Prop where
  | start : Driving s j [] s j
  | read {taken t k result u l} : Driving s j taken t k → t.read k = (result, u, l) →
      result = .ok () ∨ result = .error .streamClosed → Driving s j taken u l
  | flush {taken t k} : Driving s j taken t k → Driving s j (taken ++ t.flush.2) t.flush.1 k

/-- A stream that was driven until the footer was read, the input was used up, or a read failed. -/
inductive Driven (s : LogStream) (j : Journal) :
    List DomainRecord → Option Failure → LogStream → Journal → Prop where
  | done {taken t k} : Driving s j taken t k → t.isDone →
      Driven s j (taken ++ t.flush.2) none t.flush.1 k
  | ended {taken t k u l} : Driving s j taken t k → t.read k = (.error .streamClosed, u, l) →
      u.reader.source.flow = [] → Driven s j (taken ++ u.flush.2) none u.flush.1 l
  | failed {taken t k f u l} : Driving s j taken t k → t.read k = (.error f, u, l) →
      f ≠ .streamClosed → Driven s j (taken ++ u.flush.2) (some f) u.flush.1 l

variable {s t u : LogStream} {j k l : Journal} {taken records : List DomainRecord}

/-- A read that does not fail leads on in the reading of the session without pauses. -/
theorem read_follows {v w : Session} {ps : List Processed} {result : Except Failure Unit}
    (read : t.read k = (result, u, l)) (resumes : w.Resumes (t.session k))
    (follows : Session.Follows t.options (depth t.options) v taken ps w)
    (clean : result = .ok () ∨ result = .error .streamClosed) :
    ∃ w' qs, w'.Resumes (u.session l) ∧
      Session.Follows t.options (depth t.options) v taken qs w' := by
  obtain ⟨-, filled⟩ := read_filled read (resumes.wellNested follows.nested)
  cases filled with
  | ok path _ =>
    obtain ⟨w', path, resumes⟩ := path.resumes resumes follows.nested
    exact ⟨w', _, resumes, follows.path path⟩
  | error path fails =>
    obtain rfl := Except.error.inj (clean.resolve_left nofun)
    obtain ⟨w', path, resumes⟩ := path.resumes resumes follows.nested
    exact ⟨w', _, fails.closed_resumes resumes, follows.path path⟩

/-- However it is driven, a stream goes the way of the one without pauses. -/
theorem Driving.follows {v : Session} (driving : Driving s j taken t k)
    (resumes : v.Resumes (s.session j)) (nested : v.WellNested) :
    t.options = s.options ∧ ∃ w ps, w.Resumes (t.session k) ∧
      Session.Follows s.options (depth s.options) v taken ps w := by
  induction driving with
  | start => exact ⟨rfl, v, [], resumes, .refl nested⟩
  | read _ read clean ih =>
    obtain ⟨options, w, ps, resumes, follows⟩ := ih
    rw [← options] at follows ⊢
    exact ⟨(read_filled read (resumes.wellNested follows.nested)).1,
      read_follows read resumes follows clean⟩
  | @flush taken t k _ ih =>
    obtain ⟨options, w, ps, resumes, follows⟩ := ih
    have batch : t.flush.2 = w.state.batch := congrArg (fun f => f.batch) resumes.state
    rw [batch]
    exact ⟨options, w.emptied, ps,
      resumes.keep Session.emptied (fun _ _ => rfl) Iff.rfl, follows.emptied⟩

theorem read_closed (read : t.read k = (.error .streamClosed, u, l))
    (nested : (t.session k).WellNested) :
    ∃ ps m, Session.Path t.options (depth t.options) (t.session k) ps m ∧
      Session.Fails t.options (depth t.options) m [] .streamClosed (u.session l) := by
  obtain ⟨-, filled⟩ := read_filled read nested
  cases filled with
  | error path fails =>
    obtain ⟨rfl, -⟩ := fails.of_streamClosed
    exact ⟨_, _, path, fails⟩

theorem read_reaches {result : Except Failure Unit} (read : t.read k = (result, u, l))
    (nested : (t.session k).WellNested) (clean : result = .ok () ∨ result = .error .streamClosed) :
    ChunkReader.Reaches t.reader u.reader := by
  obtain ⟨-, filled⟩ := read_filled read nested
  cases filled with
  | ok path _ => exact path.reaches
  | error path fails =>
    obtain rfl := Except.error.inj (clean.resolve_left nofun)
    exact path.reaches.trans fails.reaches

theorem Driving.wellNested {v : Session} (driving : Driving s j taken t k)
    (resumes : v.Resumes (s.session j)) (nested : v.WellNested) : (t.session k).WellNested := by
  obtain ⟨-, w, ps, resumed, follows⟩ := driving.follows resumes nested
  exact resumed.wellNested follows.nested

theorem Driving.reaches {v : Session} (driving : Driving s j taken t k)
    (resumes : v.Resumes (s.session j)) (nested : v.WellNested) :
    ChunkReader.Reaches s.reader t.reader := by
  induction driving with
  | start => exact .refl _
  | read before read clean ih =>
    exact ih.trans (read_reaches read (before.wellNested resumes nested) clean)
  | flush _ ih => exact ih

/-- What a stream was driven to is where the reading without pauses ends. -/
theorem Driven.ends {v : Session} {failure : Option Failure}
    (driven : Driven s j records failure t k) (resumes : v.Resumes (s.session j))
    (nested : v.WellNested) :
    t.state.batch = [] ∧ ∃ w, w.Level (t.session k) ∧
      Session.Ends s.options (depth s.options) v records failure w := by
  have flushed {w : Session} {t : LogStream} {k : Journal} {taken : List DomainRecord}
      {failure : Option Failure} (level : w.Level (t.session k))
      (ends : Session.Ends s.options (depth s.options) v taken failure w) :
      ∃ w, w.Level (t.flush.1.session k) ∧
        Session.Ends s.options (depth s.options) v (taken ++ t.flush.2) failure w := by
    have batch : t.flush.2 = w.state.batch := congrArg (fun f => f.batch) level.state
    rw [batch]
    exact ⟨w.emptied, ⟨congrArg Session.emptied level.same, level.offset⟩, ends.emptied⟩
  cases driven with
  | @done _ t _ driving done =>
    obtain ⟨-, w, ps, resumes, follows⟩ := driving.follows resumes nested
    have done : t.state.phase = .done := by simpa [isDone] using done
    have done : w.state.phase = .done := resumes.state ▸ done
    exact ⟨rfl, flushed resumes.toLevel (follows.done done)⟩
  | @ended _ _ _ u l driving read nothing =>
    obtain ⟨options, w, ps, resumes, follows⟩ := driving.follows resumes nested
    obtain ⟨qs, m, path, fails⟩ := read_closed read (resumes.wellNested follows.nested)
    rw [options] at path fails
    obtain ⟨w, path, resumes⟩ := path.resumes resumes follows.nested
    obtain ⟨-, reads, -⟩ := fails.of_streamClosed
    rw [resumes.state] at reads
    have last := fails.closed_resumes resumes
    have flow := last.opened (Phase.opened_of_readsEntries reads)
    rw [show (u.session _).reader.source.flow = [] from nothing] at flow
    obtain ⟨w', ends, level⟩ := (follows.path path).ended reads flow.nil
    refine ⟨rfl, flushed (w := w') ⟨?_, level.offset.trans last.offset⟩ ends⟩
    rw [last.same, level.same]
  | failed driving read lasting =>
    obtain ⟨options, w, ps, resumes, follows⟩ := driving.follows resumes nested
    obtain ⟨-, filled⟩ := read_filled read (resumes.wellNested follows.nested)
    rw [options] at filled
    cases filled with
    | error path fails =>
      obtain ⟨w, path, resumes⟩ := path.resumes resumes follows.nested
      obtain ⟨w', fails, level⟩ := fails.resumes resumes lasting
      exact ⟨rfl, flushed level ((follows.path path).failed fails lasting)⟩

/-- Reading on comes to an end, since every batch takes a record and every pause is gone after it. -/
theorem driven_of_nested {v : Session} (resumes : v.Resumes (s.session j)) (nested : v.WellNested) :
    ∃ records failure t k, Driven s j records failure t k := by
  generalize total : (v.waiting ++
    (Session.decode s.options (depth s.options) v.bare).records s.options).length = count
  have reached : ∀ n taken t k, Driving s j taken t k →
      count - taken.length + t.reader.source.flow.length = n →
      ∃ records failure t k, Driven s j records failure t k := by
    intro n
    induction n using Nat.strongRecOn with
    | ind n ih =>
      intro taken t k driving size
      have nestedHere := driving.wellNested resumes nested
      rcases read : t.read k with ⟨f | _, u, l⟩
      · by_cases closed : f = .streamClosed
        · subst closed
          by_cases nothing : u.reader.source.flow = []
          · exact ⟨_, _, _, _, .ended driving read nothing⟩
          obtain ⟨_, m, path, fails⟩ := read_closed read nestedHere
          have shorter : u.reader.source.flow.length < t.reader.source.flow.length := by
            refine Nat.lt_of_lt_of_le ?_ path.reaches.le
            rcases fails.closed.2.2 with ⟨_, ended⟩ | pause
            · exact absurd ended nothing
            · exact pause ▸ Nat.lt_succ_self _
          exact ih _ (by omega) taken u l (driving.read read (.inr rfl)) rfl
        · exact ⟨_, _, _, _, .failed driving read closed⟩
      · have onward := driving.read read (.inl rfl)
        by_cases done : u.isDone
        · exact ⟨_, _, _, _, .done onward done⟩
        have some : 1 ≤ u.flush.2.length := progress_of_read read (by simpa using done)
        have most := (read_reaches read nestedHere (.inl rfl)).le
        have flushed := onward.flush
        obtain ⟨-, w, ps, -, follows⟩ := flushed.follows resumes nested
        have within := congrArg List.length follows.decoded
        rw [total] at within
        refine ih _ ?_ _ u.flush.1 l flushed rfl
        simp only [List.length_append] at within ⊢
        have kept : u.flush.1.reader = u.reader := rfl
        rw [kept]
        omega
  exact reached _ [] s j .start rfl

variable {file : LogFile} {source paused : Source} {o : StreamOptions} {cache : Cache}

theorem Starts.resumes (starts : Starts file paused o cache s)
    (pauses : source.flow.PausesAtEntries paused.flow) (j : Journal) :
    ∃ v, Starts file source o cache v ∧ (v.session j).Resumes (s.session j) := by
  cases starts with
  | new =>
    exact ⟨_, .new, ⟨rfl, rfl⟩, fun _ => pauses, fun opened => absurd rfl opened⟩
  | opened opened =>
    unfold LogStream.opened at opened
    dsimp only at opened
    split at opened <;> cases opened
    next h reader read =>
      have alike : (ChunkReader.ofSource source).offset = (ChunkReader.ofSource paused).offset := rfl
      obtain ⟨result, -, left⟩ := ChunkReader.fileHeader_resumes alike pauses
      have read : ChunkReader.fileHeader (.ofSource paused) = (.ok h, reader) := read
      rw [read] at result left
      rcases read' : ChunkReader.fileHeader (.ofSource source) with ⟨_ | h', m⟩ <;>
        rw [read'] at result left
      · cases result
      refine ⟨{ ofSource file source o cache with
          reader := m
          state := { (ofSource file source o cache).state with phase := .headerRead } },
        .opened ?_, Session.resumes_reader (s := Session.mk ⟨m, _⟩ [] j) (left rfl) nofun⟩
      unfold LogStream.opened
      dsimp only
      rw [show (ofSource file source o cache).reader = .ofSource source from rfl, read']

/-- What a stream of a source that pauses was driven to is where the reading of the source without
its pauses ends. -/
theorem Starts.driven {failure : Option Failure} (starts : Starts file paused o cache s)
    (pauses : source.flow.PausesAtEntries paused.flow) (driven : Driven s j records failure t k) :
    t.state.batch = [] ∧ ∃ w : Session, w.Level (t.session k) ∧
      ((ofSource file source o cache).rest j).session = w.bare ∧
      ((ofSource file source o cache).rest j).failure = failure ∧
      records ++ w.waiting = ((ofSource file source o cache).rest j).records o ∧
      (failure = none → w.included = []) := by
  obtain ⟨v, starts', resumes⟩ := starts.resumes pauses j
  obtain ⟨empty, w, level, ends⟩ := driven.ends resumes (starts'.wellNested j)
  have rest : Session.decode s.options (depth s.options) (v.session j).bare =
      (ofSource file source o cache).rest j := by
    rw [starts.fresh.1, ← starts'.rest j, LogStream.rest, starts'.fresh.1]
  have records := ends.records
  rw [rest, starts'.waiting j, starts.fresh.1] at records
  exact ⟨empty, w, level, rest ▸ ends.session, rest ▸ ends.result, records, ends.alone⟩

theorem Starts.reaches (starts : Starts file source o cache s) :
    ChunkReader.Reaches (.ofSource source) s.reader := by
  cases starts with
  | new => exact .refl _
  | opened opened =>
    unfold LogStream.opened at opened
    dsimp only at opened
    split at opened <;> cases opened
    next h reader read => exact ChunkReader.reaches_fileHeader read

/-- A file that is read with pauses between its entries, by a driver that reads on where the stream
is closed and takes the records whenever it likes, comes to what it comes to without a pause: the
same failure, state, place and journal, and the same records in the same order, apart from those
that a failing included file has not handed on in one of the runs. Where the stream is closed, the
steps of the read before lead to a session that differs from it in nothing but the pause. -/
theorem driven_paused {s' : LogStream} (pauses : source.flow.PausesAtEntries paused.flow)
    (starts : Starts file source o cache s) (starts' : Starts file paused o cache s')
    (j : Journal) :
    (∃ records failure t k, Driven s j records failure t k) ∧
    (∃ records failure t k, Driven s' j records failure t k) ∧
    (∀ records failure t k records' failure' t' k', Driven s j records failure t k →
      Driven s' j records' failure' t' k' →
      failure' = failure ∧ t'.state = t.state ∧ t'.offset = t.offset ∧ k' = k ∧
      Included.bare t'.included = Included.bare t.included ∧
      records' ++ (t'.session k').waiting = records ++ (t.session k).waiting ∧
      (failure = none ∨ t.included = [] → records' = records)) ∧
    ∀ taken t k u l, Driving s' j taken t k → t.read k = (.error .streamClosed, u, l) →
      ∃ ps m, Session.Path t.options (depth t.options) (t.session k) ps m ∧
        u.session l = { m with reader := u.reader } ∧ u.reader.offset = m.reader.offset ∧
        (m.reader.source.flow = [] ∧ u.reader.source.flow = [] ∨
          m.reader.source.flow = .pause :: u.reader.source.flow) ∧
        ∃ before, paused.flow = before ++ m.reader.source.flow ∧
          u.reader.offset = before.byteCount := by
  obtain ⟨v, startsHere, resumes⟩ := starts.resumes pauses.steady j
  obtain ⟨v', starts₀, resumes'⟩ := starts'.resumes pauses j
  have nested := startsHere.wellNested j
  have nested' := starts₀.wellNested j
  refine ⟨driven_of_nested resumes nested, driven_of_nested resumes' nested', ?_, ?_⟩
  · intro records failure t k records' failure' t' k' driven driven'
    obtain ⟨empty, w, level, session, result, all, alone⟩ := starts.driven pauses.steady driven
    obtain ⟨empty', w', level', session', result', all', -⟩ := starts'.driven pauses driven'
    have bare : w'.bare = w.bare := session'.symm.trans session
    have state : t'.state = t.state := (level'.bare_state empty').symm.trans
      ((congrArg (fun s => s.state) bare).trans (level.bare_state empty))
    have offset : t'.reader.offset = t.reader.offset :=
      level'.offset.symm.trans ((congrArg (fun s => s.reader.offset) bare).trans level.offset)
    have included : Included.bare t'.included = Included.bare t.included := by
      rw [show t'.included = w'.included from level'.included,
        show t.included = w.included from level.included]
      exact congrArg (fun s => s.included) bare
    have waiting : records' ++ (t'.session k').waiting = records ++ (t.session k).waiting := by
      rw [level'.waiting, level.waiting, all, all']
    refine ⟨result'.symm.trans result, state, ?_, ?_, included, waiting, fun whole => ?_⟩
    · rw [LogStream.offset, LogStream.offset, state, offset]
    · exact level'.journal.trans ((congrArg (fun s => s.journal) bare).trans level.journal.symm)
    · have nothing : t.included = [] :=
        whole.elim (fun clean => level.included.trans (alone clean)) id
      have nothing' : t'.included = [] := by
        rw [nothing] at included
        exact Included.bare_eq_nil.mp included
      rw [waiting_of_alone nothing, waiting_of_alone nothing', flush, flush, empty, empty',
        List.append_nil, List.append_nil] at waiting
      exact waiting
  · intro taken t k u l driving read
    obtain ⟨ps, m, path, fails⟩ := read_closed read (driving.wellNested resumes' nested')
    obtain ⟨same, offset, flow⟩ := fails.closed
    obtain ⟨before, whole, place⟩ :=
      (starts'.reaches.trans (driving.reaches resumes' nested')).trans path.reaches
    refine ⟨ps, m, path, same, offset, flow, before, whole, ?_⟩
    rw [show u.reader.offset = m.reader.offset from offset, place]
    exact Nat.zero_add _

theorem read_gives {result : Except Failure Unit} (given : (s.read j).1 = result) :
    s.read j = (result, (s.read j).2.1, (s.read j).2.2) := Prod.ext given rfl

theorem Driving.driven {more : List DomainRecord} {failure : Option Failure}
    (first : Driving s j taken t k) (rest : Driven t k more failure u l) :
    Driven s j (taken ++ more) failure u l := by
  have onward {more : List DomainRecord} {u : LogStream} {l : Journal}
      (rest : Driving t k more u l) : Driving s j (taken ++ more) u l := by
    induction rest with
    | start => exact (List.append_nil taken).symm ▸ first
    | read _ read clean ih => exact ih.read read clean
    | flush _ ih => exact List.append_assoc .. ▸ ih.flush
  cases rest with
  | done rest done => exact List.append_assoc .. ▸ .done (onward rest) done
  | ended rest read nothing => exact List.append_assoc .. ▸ .ended (onward rest) read nothing
  | failed rest read lasting => exact List.append_assoc .. ▸ .failed (onward rest) read lasting

theorem Driven.readOn {result : Except Failure Unit} {failure : Option Failure}
    (given : (s.read j).1 = result) (clean : result = .ok () ∨ result = .error .streamClosed)
    (rest : Driven (s.read j).2.1.flush.1 (s.read j).2.2 records failure t k) :
    Driven s j ((s.read j).2.1.flush.2 ++ records) failure t k :=
  (Driving.start.read (read_gives given) clean).flush.driven rest

theorem Driven.readLast {f : Failure} (failed : (s.read j).1 = .error f)
    (lasting : f ≠ .streamClosed) :
    Driven s j (s.read j).2.1.flush.2 (some f) (s.read j).2.1.flush.1 (s.read j).2.2 :=
  .failed .start (read_gives failed) lasting

theorem Driven.readToEnd (closed : (s.read j).1 = .error .streamClosed)
    (nothing : (s.read j).2.1.reader.source.flow = []) :
    Driven s j (s.read j).2.1.flush.2 none (s.read j).2.1.flush.1 (s.read j).2.2 :=
  .ended .start (read_gives closed) nothing

/-- A file that includes another one, and pauses before and behind the entry that does so. -/
theorem driven_paused_included :
    let words (chunks : List UInt32) : List UInt8 := chunks.flatMap bytesOfChunk
    let inner : Source := [.bytes (signature ++ words [1, 0, 3, 2, 8, 3, 2, 8])]
    let head := signature ++ words [1, 0]
    let includes := words [7, 2, 9, 4, 0x0501, 1, 0x62]
    let last := words [3, 2, 8]
    let source : Source := [.bytes (head ++ includes ++ last)]
    let paused : Source := [.bytes head, .pause, .bytes includes, .pause, .bytes last]
    let o : StreamOptions :=
      ⟨⟨none, true, .row, false⟩, .accepting, some (.named (.ofList [("b", inner)]))⟩
    let s := ofSource ⟨3, 5, "a"⟩ source o .empty
    let s' := ofSource ⟨3, 5, "a"⟩ paused o .empty
    ∃ records t k t' k', Driven s .empty records none t k ∧ Driven s' .empty records none t' k' ∧
      records.length = 3 ∧ t'.state = t.state ∧ t'.offset = t.offset ∧ k' = k := by
  intro words inner head includes last source paused o s s'
  have pauses : source.flow.PausesAtEntries paused.flow := by
    have frame : ChunkReader.IsFrame includes := ⟨7, words [2, 9, 4, 0x0501, 1, 0x62], rfl, rfl⟩
    have behind : Flow.Pauses (Flow.ofBytes includes ++ Flow.ofBytes last)
        (.pause :: (Flow.ofBytes includes ++ .pause :: Flow.ofBytes last)) :=
      .pause (.entry frame (.pause (.same (by decide))))
    have flow : source.flow = Flow.ofBytes head ++ (Flow.ofBytes includes ++ Flow.ofBytes last) := by
      decide +kernel
    have flow' : paused.flow = Flow.ofBytes head ++
        (.pause :: (Flow.ofBytes includes ++ .pause :: Flow.ofBytes last)) := by decide +kernel
    rw [flow, flow']
    exact .header (by decide +kernel) behind
  have read : (s.read .empty).1 = .error .streamClosed := by decide +kernel
  have driven := Driven.readToEnd read (by decide +kernel)
  obtain ⟨-, ⟨records', failure', t', k', driven'⟩, same, -⟩ :=
    driven_paused pauses .new .new .empty
  obtain ⟨rfl, state, offset, rfl, -, -, all⟩ := same _ _ _ _ _ _ _ _ driven driven'
  obtain rfl := all (.inl rfl)
  exact ⟨_, _, _, t', _, driven, driven', by decide +kernel, state, offset, rfl⟩

/-- Two records to a batch, and an included file of two records and an entry that cannot be read:
without a pause the second of them waits in the included file when it fails, with a pause before the
entry that includes it none of them does. -/
theorem withheld_without_pause :
    let words (chunks : List UInt32) : List UInt8 := chunks.flatMap bytesOfChunk
    let inner : Source := [.bytes (signature ++ words [1, 0, 3, 2, 8, 3, 2, 8, 2, 0, 0])]
    let first := signature ++ words [1, 0, 3, 2, 8]
    let includes := words [7, 2, 9, 4, 0x0501, 1, 0x62]
    let o : StreamOptions :=
      ⟨⟨some 2, true, .row, false⟩, .accepting, some (.named (.ofList [("b", inner)]))⟩
    let s := ofSource ⟨3, 5, "a"⟩ [.bytes first, .bytes includes] o .empty
    let s' := ofSource ⟨3, 5, "a"⟩ [.bytes first, .pause, .bytes includes] o .empty
    ∃ records f t k records' t' k', Driven s .empty records (some f) t k ∧
      Driven s' .empty records' (some f) t' k' ∧ records.length = 2 ∧ records'.length = 3 := by
  intro words inner first includes o s s'
  have lasting : Failure.malformedEntry 40 (.shortLength 2) ≠ .streamClosed := nofun
  exact ⟨_, _, _, _, _, _, _,
    .readOn (by decide +kernel) (.inl rfl) (.readLast (by decide +kernel) lasting),
    .readOn (by decide +kernel) (.inr rfl)
      (.readOn (by decide +kernel) (.inl rfl) (.readLast (by decide +kernel) lasting)),
    by decide +kernel, by decide +kernel⟩

end LogStream

end ChangeCapture
