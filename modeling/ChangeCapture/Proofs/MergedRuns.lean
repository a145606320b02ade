import ChangeCapture.Proofs.Draining
import ChangeCapture.Proofs.Merging

/-! Runs of streams that put rows together. Only the file that is read at the time holds rows; they
are handed to an included file as none and handed back as at most one, and at every moment of a run
what has gone out and what is held together account for all entries that were decoded. -/
namespace ChangeCapture

open DomainRecord

/-- The files further out hold no row, and neither does a file whose footer was processed. -/
def Orderly : FileState → List Included → Prop
  | f, [] => f.cache.parts.Tidy ∧ (f.phase = .done → f.cache.parts.Settled)
  | f, i :: deeper => f.cache.parts.Settled ∧ Orderly i.state deeper

/-- The rows that are held in any file that is open. -/
def openRows (f : FileState) (included : List Included) : List ChangeHeader :=
  f.cache.parts.rows ++ included.flatMap (fun i => i.state.cache.parts.rows)

theorem openRows_cons {f : FileState} {i : Included} {deeper : List Included}
    (settled : f.cache.parts.Settled) : openRows f (i :: deeper) = openRows i.state deeper := by
  rw [openRows, settled.rows, openRows, List.flatMap_cons, List.nil_append]

namespace Orderly

theorem congr {f g : FileState} {included : List Included} (orderly : Orderly f included)
    (phase : g.phase = f.phase) (parts : g.cache.parts = f.cache.parts) : Orderly g included := by
  cases included with
  | nil => exact ⟨parts ▸ orderly.1, fun done => parts ▸ orderly.2 (phase ▸ done)⟩
  | cons i deeper => exact ⟨parts ▸ orderly.1, orderly.2⟩

theorem rows_le_one {f : FileState} {included : List Included} (orderly : Orderly f included) :
    (openRows f included).length ≤ 1 := by
  induction included generalizing f with
  | nil => simpa [openRows] using orderly.1.one
  | cons i deeper ih =>
    rw [openRows_cons orderly.1]
    exact ih orderly.2

theorem rows_of_done {f : FileState} {included : List Included} (orderly : Orderly f included)
    (nested : Nested f.phase included)
    (done : f.phase = .done ∨ ∃ i ∈ included, i.state.phase = .done) : openRows f included = [] := by
  induction included generalizing f with
  | nil =>
    have done : f.phase = .done := by simpa using done
    simpa [openRows] using (orderly.2 done).rows
  | cons i deeper ih =>
    rw [openRows_cons orderly.1]
    refine ih orderly.2 nested.2.2 ?_
    rcases done with done | ⟨k, member, done⟩
    · rw [nested.1] at done
      cases done
    · rcases List.mem_cons.mp member with rfl | member
      · exact .inl done
      · exact .inr ⟨k, member, done⟩

end Orderly

namespace Session

def Orderly (s : Session) : Prop := ChangeCapture.Orderly s.state s.included

def heldRows (s : Session) : List ChangeHeader := openRows s.state s.included

/-- What steps do to rows: those that were held and those that are due go out or are held. -/
structure Balances (o : StreamOptions) (s : Session) (ps : List Processed) (t : Session) : Prop where
  balance : (changes (Processed.allRecords o ps)).map Change.origin ++
      t.heldRows.map ChangeHeader.origin =
    s.heldRows.map ChangeHeader.origin ++ ps.flatMap (Processed.due o)
  whole : ∀ c ∈ changes (Processed.allRecords o ps), c.IsWhole
  spares : ∀ p ∈ ps, (p.desk.cleared o p.entry).state.cache.parts.Spares (p.partsAfter o)
  orderly : t.Orderly

variable {o : StreamOptions} {depth : Nat} {s t : Session} {ps : List Processed}

theorem balances_nil (rows : t.heldRows = s.heldRows) (orderly : t.Orderly) : Balances o s [] t where
  balance := by rw [rows]; simp
  whole := fun _ member => absurd member List.not_mem_nil
  spares := fun _ member => absurd member List.not_mem_nil
  orderly := orderly

theorem balances_entry (merging : o.Merging) {e : Entry} {reader : ChunkReader}
    {opened : Option Included} (alone : s.included = []) (orderly : s.Orderly)
    (done : (s.processing e).result o = .ok opened) :
    Balances o s [s.processing e] (s.afterEntry reader ((s.processing e).after o) opened) := by
  have orderly : ChangeCapture.Orderly s.state [] := alone ▸ orderly
  obtain ⟨balance, whole, tidy, settled, spares⟩ :=
    Processed.accounts merging (p := s.processing e) rfl rfl orderly.1 done
  have before : s.heldRows = (s.processing e).parts.rows := by
    simp [heldRows, openRows, alone, Processed.parts, processing]
  have after : (s.afterEntry reader ((s.processing e).after o) opened).heldRows =
        ((s.processing e).partsAfter o).rows ∧
      (s.afterEntry reader ((s.processing e).after o) opened).Orderly := by
    rcases Processed.phase_after o _ rfl done with ⟨rfl, phase⟩ | ⟨i, rfl, paused, fresh⟩
    · refine ⟨List.append_nil _, tidy, fun done => settled ?_⟩
      show (Processed.after o _).state.phase ≠ .reading
      rw [show (Processed.after o _).state.phase = .done from done]
      decide
    · have settled := settled (by rw [paused]; decide)
      have handed : i.state.cache.parts = (s.processing e).partsAfter o := by
        rw [fresh.cache]
        rfl
      refine ⟨?_, settled, handed ▸ tidy, fun _ => handed ▸ settled⟩
      have inner : openRows i.state [] = ((s.processing e).partsAfter o).rows := by
        rw [openRows, handed, List.flatMap_nil, List.append_nil]
      exact (openRows_cons settled).trans inner
  constructor
  · rw [Processed.allRecords_singleton, after.1, before, List.flatMap_singleton]
    exact balance
  · rw [Processed.allRecords_singleton]
    exact whole
  · intro p member
    rw [List.mem_singleton.mp member]
    exact spares
  · exact after.2

theorem Step.balances (merging : o.Merging) (step : Step o depth s ps t) (nested : s.WellNested)
    (orderly : s.Orderly) : Balances o s ps t := by
  induction step with
  | @header _ s _ _ unopened _ =>
    have alone := nested.included_nil (by rw [unopened]; nofun)
    refine balances_nil rfl ?_
    simp only [Session.Orderly, alone] at orderly ⊢
    exact ⟨orderly.1, nofun⟩
  | entry reads _ done => exact balances_entry merging (nested.alone_of_reads reads) orderly done
  | @included _ s i deeper ps t open_ running step ih =>
    rw [Session.Orderly, open_] at orderly
    obtain ⟨settled, inner⟩ := orderly
    obtain ⟨balance, whole, spares, after⟩ := ih (nested.of_included open_).2.2 inner
    refine ⟨?_, whole, spares, settled, after⟩
    have before : s.heldRows = (s.inner i deeper).heldRows := by
      rw [heldRows, open_, openRows_cons settled]
      rfl
    have rows : (s.outer i t).heldRows = t.heldRows := openRows_cons settled
    rw [rows, before]
    exact balance
  | @footer _ s i open_ _ _ =>
    rw [Session.Orderly, open_] at orderly
    exact balances_nil (by rw [heldRows, heldRows, open_]; rfl) orderly
  | @close _ s i reader open_ _ _ _ =>
    rw [Session.Orderly, open_] at orderly
    exact balances_nil (by rw [heldRows, heldRows, open_]; rfl) orderly
  | @handOn _ s i deeper count open_ =>
    rw [Session.Orderly, open_] at orderly
    exact balances_nil (by rw [heldRows, heldRows, open_]; rfl) ⟨orderly.1, orderly.2.congr rfl rfl⟩
  | @resume _ s i open_ finished =>
    rw [Session.Orderly, open_] at orderly
    refine balances_nil ?_ ⟨orderly.2.1, nofun⟩
    rw [heldRows, heldRows, open_, openRows_cons orderly.1]
    rfl

end Session

namespace LogStream

/-- The stream of a session. -/
def onward (s : LogStream) (t : Session) : LogStream :=
  { s with toOpenFile := t.toOpenFile, included := t.included }

/-- The moments of a run without errors, with the entries that were processed and the records that
were taken until then. Any step may be followed by any call. -/
inductive Moment (s : LogStream) (j : Journal) :
    List Processed → List DomainRecord → LogStream → Journal → Prop where
  | start : Moment s j [] [] s j
  | step {ps taken t k qs u} : Moment s j ps taken t k →
      Session.Step t.options (depth t.options) (t.session k) qs u →
      Moment s j (ps ++ qs) taken (t.onward u) u.journal
  /-- The input ends without a footer. -/
  | ended {ps taken t k reader} : Moment s j ps taken t k → t.state.phase.readsEntries →
      ChunkReader.next t.reader = (.error .streamClosed, reader) →
      Moment s j ps taken { t with reader } k
  | append {ps taken t k} (source : Source) : Moment s j ps taken t k →
      Moment s j ps taken (t.append source) k
  | flush {ps taken t k} : Moment s j ps taken t k →
      Moment s j ps (taken ++ t.flush.2) t.flush.1 k
  | flushTransactions {ps taken t k} : Moment s j ps taken t k →
      Moment s j ps taken (t.flushTransactions k).1 (t.flushTransactions k).2

/-- What has gone out and what is held account for the entries that were processed. -/
structure Merged (o : StreamOptions) (ps : List Processed) (taken : List DomainRecord)
    (s : Session) : Prop where
  nested : s.WellNested
  orderly : s.Orderly
  balance : (changes (taken ++ s.waiting)).map Change.origin ++ s.heldRows.map ChangeHeader.origin =
    ps.flatMap (Processed.due o)
  whole : ∀ c ∈ changes (taken ++ s.waiting), c.IsWhole
  spares : ∀ p ∈ ps, (p.desk.cleared o p.entry).state.cache.parts.Spares (p.partsAfter o)

variable {s t : LogStream} {j k : Journal} {ps : List Processed} {taken : List DomainRecord}
variable {o : StreamOptions}

/-- What becomes of the rows of a stream that is told to emit what it holds. -/
structure Emits (s t : Session) : Prop where
  orderly : t.Orderly
  balance : ∃ out : List Change, changes t.waiting = changes s.waiting ++ out ∧
    (∀ c ∈ out, c.IsWhole) ∧ out.map Change.origin ++ t.heldRows.map ChangeHeader.origin =
      s.heldRows.map ChangeHeader.origin
  settled : s.state.phase ≠ .paused → t.heldRows = []

theorem flushTransactions_emits (delivering : t.options.Delivering)
    (nested : (t.session k).WellNested) (orderly : (t.session k).Orderly) :
    Emits (t.session k) ((t.flushTransactions k).1.session (t.flushTransactions k).2) := by
  have standing := Desk.standing_flushTransactions delivering ⟨t.state, k⟩
  unfold flushTransactions session
  generalize Desk.flushTransactions t.options.gates ⟨t.state, k⟩ = d at standing ⊢
  simp only [Desk.standing, Desk.Standing.mk.injEq] at standing
  obtain ⟨phase, parts, out⟩ := standing
  unfold session at nested orderly
  cases open_ : t.included with
  | nil =>
    rw [open_] at orderly
    have settled : d.state.cache.parts.Settled := by
      rw [parts]
      exact Parts.release_settled orderly.1
    have nothing : openRows d.state [] = [] := by simp [openRows, settled.rows]
    refine ⟨⟨settled.tidy, fun _ => settled⟩, ⟨t.state.cache.parts.released, ?_, ?_, ?_⟩,
      fun _ => nothing⟩
    · simp [Session.waiting, Included.waiting, out]
    · exact t.state.cache.parts.released_whole
    · simp [Session.heldRows, settled.rows, openRows, t.state.cache.parts.released_origin]
  | cons i deeper =>
    rw [open_] at orderly nested
    obtain ⟨settledBefore, inner⟩ := orderly
    have settled : d.state.cache.parts.Settled := by
      rw [parts]
      exact Parts.release_settled settledBefore.tidy
    refine ⟨⟨settled, inner⟩, ⟨[], ?_, fun _ member => absurd member List.not_mem_nil, ?_⟩,
      fun running => absurd nested.1 running⟩
    · simp [Session.waiting, out, settledBefore.released]
    · simp only [Session.heldRows, openRows_cons settled, openRows_cons settledBefore]
      rfl

theorem Merged.flushTransactions (merging : t.options.Merging)
    (merged : Merged t.options ps taken (t.session k)) :
    Merged t.options ps taken ((t.flushTransactions k).1.session (t.flushTransactions k).2) := by
  obtain ⟨nested, orderly, balance, whole, spares⟩ := merged
  obtain ⟨orderlyThen, ⟨out, waiting, outWhole, rows⟩, _⟩ :=
    flushTransactions_emits merging.delivering nested orderly
  have phase : (t.flushTransactions k).1.state.phase = t.state.phase :=
    congrArg Desk.Standing.phase (Desk.standing_flushTransactions merging.delivering ⟨t.state, k⟩)
  refine ⟨?_, orderlyThen, ?_, ?_, spares⟩
  · show Nested (t.flushTransactions k).1.state.phase t.included
    rw [phase]
    exact nested
  · rw [← balance, ← rows, changes_append, changes_append, waiting]
    simp
  · rw [changes_append, waiting, ← List.append_assoc, ← changes_append]
    exact fun c member => (List.mem_append.mp member).elim (whole c) (outWhole c)

theorem Moment.merged (merging : s.options.Merging)
    (started : Merged s.options [] [] (s.session j)) (moment : Moment s j ps taken t k) :
    t.options = s.options ∧ Merged s.options ps taken (t.session k) := by
  induction moment with
  | start => exact ⟨rfl, started⟩
  | @step ps taken t k qs u _ step ih =>
    obtain ⟨options, merged⟩ := ih
    rw [options] at step
    obtain ⟨balance, whole, spares, orderly⟩ := step.balances merging merged.nested merged.orderly
    have waiting := (step.continues merged.nested).waiting
    refine ⟨options, step.wellNested merged.nested, orderly, ?_, ?_, ?_⟩
    · show (changes (taken ++ u.waiting)).map Change.origin ++ u.heldRows.map _ = _
      rw [waiting, ← List.append_assoc, changes_append, List.map_append, List.append_assoc, balance,
        ← List.append_assoc, merged.balance, List.flatMap_append]
    · show ∀ c ∈ changes (taken ++ u.waiting), c.IsWhole
      rw [waiting, ← List.append_assoc, changes_append]
      exact fun c member => (List.mem_append.mp member).elim (merged.whole c) (whole c)
    · exact fun p member => (List.mem_append.mp member).elim (merged.spares p) (spares p)
  | ended _ _ _ ih =>
    obtain ⟨options, nested, orderly, balance, whole, spares⟩ := ih
    exact ⟨options, nested, orderly, balance, whole, spares⟩
  | append _ _ ih =>
    obtain ⟨options, nested, orderly, balance, whole, spares⟩ := ih
    exact ⟨options, nested, orderly, balance, whole, spares⟩
  | @flush ps taken t k _ ih =>
    obtain ⟨options, nested, orderly, balance, whole, spares⟩ := ih
    rw [waiting_flush, ← List.append_assoc] at balance whole
    exact ⟨options, nested, orderly.congr rfl rfl, balance, whole, spares⟩
  | @flushTransactions ps taken t k _ ih =>
    obtain ⟨options, merged⟩ := ih
    rw [← options] at merging merged ⊢
    exact ⟨rfl, merged.flushTransactions merging⟩

theorem Moment.path {u : Session} {qs : List Processed} (moment : Moment s j ps taken t k)
    (path : Session.Path t.options (depth t.options) (t.session k) qs u) :
    Moment s j (ps ++ qs) taken (t.onward u) u.journal := by
  generalize options : t.options = o at path
  generalize start : t.session k = m at path
  induction path generalizing ps t k with
  | nil =>
    subst start
    rw [List.append_nil]
    exact moment
  | cons step _ ih =>
    subst start options
    have next := ih (moment.step step) rfl rfl
    rw [← List.append_assoc]
    exact next

/-- A read leads from one moment to another, whatever it comes upon on its way. -/
theorem Moment.read {u : LogStream} {l : Journal} {result : Except Failure Unit}
    (moment : Moment s j ps taken t k) (nested : (t.session k).WellNested)
    (read : t.read k = (result, u, l)) (clean : result = .ok () ∨ result = .error .streamClosed) :
    ∃ qs, Moment s j (ps ++ qs) taken u l := by
  have filled := Session.filled_fill (o := t.options) (depth t.options)
    t.options.config.effectiveBatchSize nested
  unfold LogStream.read at read
  rcases fill : Session.fill t.options (depth t.options) t.options.config.effectiveBatchSize
    ⟨t.toOpenFile, t.included, k⟩ with ⟨_, m⟩
  rw [fill] at read
  rw [session, fill] at filled
  cases read
  cases filled with
  | @ok qs _ path full => exact ⟨qs, moment.path path⟩
  | @error qs _ m _ f path fails =>
    obtain rfl : f = .streamClosed := by simpa using clean
    obtain ⟨_, reads, reader, ended, rfl⟩ := fails.of_streamClosed
    exact ⟨qs, (moment.path path).ended reads ended⟩

theorem Starts.merged {file : LogFile} {source : Source} {cache : Cache}
    (starts : Starts file source o cache s) (settled : cache.parts.Settled) (j : Journal) :
    s.options = o ∧ Merged o [] [] (s.session j) := by
  obtain ⟨options, alone, -, carried, -⟩ := starts.fresh
  have settled : s.state.cache.parts.Settled := carried ▸ settled
  have orderly : (s.session j).Orderly := by
    show Orderly s.state s.included
    rw [alone]
    exact ⟨settled.tidy, fun _ => settled⟩
  have rows : (s.session j).heldRows = [] := by
    show openRows s.state s.included = []
    rw [alone, openRows, settled.rows]
    rfl
  refine ⟨options, starts.wellNested j, orderly, ?_, ?_, nofun⟩
  · rw [starts.waiting j, rows]
    rfl
  · rw [starts.waiting j]
    exact fun _ member => absurd member List.not_mem_nil

/-- Where rows are put together, each entry that is decoded as a change goes out as one record that
is whole, unless it is a large-object write, which never does: at every moment of a run the records
so far and the rows that are held name the decoded entries once each and in order. No more than one
row is held at a time; none takes the place of what is held, and none is left once a footer was
processed or once the stream was told to emit what it holds. Reads lead from moment to moment. -/
theorem moment_accounted {file : LogFile} {source : Source} {cache : Cache} (merging : o.Merging)
    (settled : cache.parts.Settled) (starts : Starts file source o cache s)
    (moment : Moment s j ps taken t k) :
    (changes (taken ++ (t.session k).waiting)).map Change.origin ++
        (t.session k).heldRows.map ChangeHeader.origin = ps.flatMap (Processed.due o) ∧
      (∀ c ∈ changes (taken ++ (t.session k).waiting), c.IsWhole) ∧
      (t.session k).heldRows.length ≤ 1 ∧
      (∀ p ∈ ps, (p.desk.cleared o p.entry).state.cache.parts.Spares (p.partsAfter o)) ∧
      (t.state.phase = .done ∨ (∃ i ∈ t.included, i.state.phase = .done) →
        (t.session k).heldRows = []) ∧
      (t.state.phase ≠ .paused →
        ((t.flushTransactions k).1.session (t.flushTransactions k).2).heldRows = []) ∧
      ∀ result u l, t.read k = (result, u, l) → result = .ok () ∨ result = .error .streamClosed →
        ∃ qs, Moment s j (ps ++ qs) taken u l := by
  obtain ⟨rfl, started⟩ := starts.merged settled j
  obtain ⟨options, nested, orderly, balance, whole, spares⟩ := moment.merged merging started
  have delivering : t.options.Delivering := options ▸ merging.delivering
  exact ⟨balance, whole, orderly.rows_le_one, spares, orderly.rows_of_done nested,
    (flushTransactions_emits delivering nested orderly).settled,
    fun _ _ _ read clean => moment.read nested read clean⟩

/-- Two inserts into a table with a large object, the first of which is completed: when the batch is
full the first has gone out and the second is held. -/
theorem moment_accounted_lobs :
    let words (chunks : List UInt32) : List UInt8 := chunks.flatMap bytesOfChunk
    let source : Source := [.bytes (signature ++ words [1, 0, 3, 2, 1, 3, 2, 4, 3, 2, 1, 3, 0, 1])]
    let o : StreamOptions := ⟨⟨some 1, true, .row, false⟩, .accepting, none⟩
    let table : Table := .new 0 "a" "t" [⟨1, "c", .clob, 0, 0, true, false⟩]
    let cache : Cache := ⟨⟨⟨.ofList [(0, table)]⟩, .empty⟩, ∅, none⟩
    let s := ofSource ⟨3, 5, "a"⟩ source o cache
    ∃ ps t k, Moment s .empty ps [] t k ∧
      ((t.session k).heldRows.map ChangeHeader.origin = [(⟨3, 3⟩, .insert)]) ∧
      (changes ([] ++ (t.session k).waiting)).map Change.origin ++
          (t.session k).heldRows.map ChangeHeader.origin = ps.flatMap (Processed.due o) ∧
      ∀ c ∈ changes ([] ++ (t.session k).waiting), c.IsWhole := by
  intro words source o table cache s
  have merging : o.Merging := ⟨rfl, rfl, fun _ => ⟨rfl, rfl⟩⟩
  have settled : cache.parts.Settled := fun _ member => absurd member List.not_mem_nil
  have ok : (s.read .empty).1.isOk := by decide +kernel
  obtain ⟨ps, moment⟩ := Moment.read .start (Starts.new.wellNested .empty) (read_eq ok) (.inl rfl)
  obtain ⟨balance, whole, -⟩ := moment_accounted merging settled .new moment
  exact ⟨_, _, _, moment, by decide +kernel, balance, whole⟩

end LogStream

end ChangeCapture
