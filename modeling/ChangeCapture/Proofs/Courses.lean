import ChangeCapture.Proofs.MergedRuns

/-! Runs of streams, whatever goes wrong on the way. A read that fails leaves the stream between two
steps, where it may be read on, emptied or told to emit what it holds like any other. -/
namespace ChangeCapture

namespace Session

variable {o : StreamOptions} {depth : Nat}

theorem Fails.wellNested {s t : Session} {ps : List Processed} {f : Failure}
    (fails : Fails o depth s ps f t) (nested : s.WellNested) : t.WellNested := by
  induction fails with
  | header | next => exact nested
  | @entry _ s e _ _ _ _ failed =>
    show ((s.processing e).after o).state.phase ≠ .paused
    rw [Processed.failed_after o _ rfl failed]
    decide
  | tooDeep => exact nested
  | included open_ running _ _ ih =>
    obtain ⟨paused, _, deeper⟩ := nested.of_included open_
    exact ⟨paused, by rw [running]; nofun, ih deeper⟩

end Session

namespace LogStream

/-- The runs of a stream, with the entries that were processed and the records that were taken.
Steps that fail are steps of a run too; `flushing` says whether the stream may be told to emit what
it holds and be read on after that. -/
inductive Course (flushing : Prop) (s : LogStream) (j : Journal) :
    List Processed → List DomainRecord → LogStream → Journal → Prop where
  | start : Course flushing s j [] [] s j
  | step {ps taken t k qs u} : Course flushing s j ps taken t k →
      Session.Step t.options (depth t.options) (t.session k) qs u →
      Course flushing s j (ps ++ qs) taken (t.onward u) u.journal
  | fail {ps taken t k qs f u} : Course flushing s j ps taken t k →
      Session.Fails t.options (depth t.options) (t.session k) qs f u →
      Course flushing s j (ps ++ qs) taken (t.onward u) u.journal
  | append {ps taken t k} (source : Source) : Course flushing s j ps taken t k →
      Course flushing s j ps taken (t.append source) k
  | flush {ps taken t k} : Course flushing s j ps taken t k →
      Course flushing s j ps (taken ++ t.flush.2) t.flush.1 k
  | flushTransactions {ps taken t k} : flushing → Course flushing s j ps taken t k →
      Course flushing s j ps taken (t.flushTransactions k).1 (t.flushTransactions k).2

variable {flushing : Prop} {s t : LogStream} {j k : Journal} {ps : List Processed}
variable {taken : List DomainRecord}

theorem Course.options (course : Course flushing s j ps taken t k) : t.options = s.options := by
  induction course with
  | start => rfl
  | step _ _ ih | fail _ _ ih | append _ _ ih | flush _ ih | flushTransactions _ _ ih => exact ih

theorem Course.trans {also : Prop} {u : LogStream} {l : Journal} {qs : List Processed}
    {more : List DomainRecord} (first : Course flushing s j ps taken t k)
    (rest : Course also t k qs more u l) (allowed : also → flushing) :
    Course flushing s j (ps ++ qs) (taken ++ more) u l := by
  induction rest with
  | start =>
    rw [List.append_nil, List.append_nil]
    exact first
  | step _ step ih =>
    rw [← List.append_assoc]
    exact ih.step step
  | fail _ fails ih =>
    rw [← List.append_assoc]
    exact ih.fail fails
  | append source _ ih => exact ih.append source
  | flush _ ih =>
    rw [← List.append_assoc]
    exact ih.flush
  | flushTransactions also _ ih => exact ih.flushTransactions (allowed also)

theorem Course.path {u : Session} {qs : List Processed} (course : Course flushing s j ps taken t k)
    (path : Session.Path t.options (depth t.options) (t.session k) qs u) :
    Course flushing s j (ps ++ qs) taken (t.onward u) u.journal := by
  generalize options : t.options = o at path
  generalize start : t.session k = m at path
  induction path generalizing ps t k with
  | nil =>
    subst start
    rw [List.append_nil]
    exact course
  | cons step _ ih =>
    subst start options
    have next := ih (course.step step) rfl rfl
    rw [← List.append_assoc]
    exact next

/-- Whatever a read comes to, it leads along a run. -/
theorem Course.read {u : LogStream} {l : Journal} {result : Except Failure Unit}
    (course : Course flushing s j ps taken t k) (nested : (t.session k).WellNested)
    (read : t.read k = (result, u, l)) : ∃ qs, Course flushing s j (ps ++ qs) taken u l := by
  have filled := Session.filled_fill (o := t.options) (depth t.options)
    t.options.config.effectiveBatchSize nested
  unfold LogStream.read at read
  rcases fill : Session.fill t.options (depth t.options) t.options.config.effectiveBatchSize
    ⟨t.toOpenFile, t.included, k⟩ with ⟨_, m⟩
  rw [fill] at read
  rw [session, fill] at filled
  cases read
  cases filled with
  | @ok qs _ path _ => exact ⟨qs, course.path path⟩
  | @error qs rs _ _ _ path fails =>
    have failed := (course.path path).fail fails
    rw [List.append_assoc] at failed
    exact ⟨qs ++ rs, failed⟩

theorem phase_flushTransactions (t : LogStream) (k : Journal) :
    (t.flushTransactions k).1.state.phase = t.state.phase := by
  have kept := congrArg Desk.Standing.phase (Desk.standing_withTransactions t.options.gates
    (Desk.release t.options.gates ⟨t.state, k⟩)
    (Desk.transactions (Desk.release t.options.gates ⟨t.state, k⟩)).flush.1
    (Desk.transactions (Desk.release t.options.gates ⟨t.state, k⟩)).flush.2)
  exact kept.trans (Desk.phase_release _ _)

theorem Course.wellNested (course : Course flushing s j ps taken t k)
    (nested : (s.session j).WellNested) : (t.session k).WellNested := by
  induction course with
  | start => exact nested
  | step _ step ih => exact step.wellNested ih
  | fail _ fails ih => exact fails.wellNested ih
  | append _ _ ih | flush _ ih => exact ih
  | @flushTransactions ps taken t k _ _ ih =>
    show Nested (t.flushTransactions k).1.state.phase t.included
    rw [phase_flushTransactions]
    exact ih

end LogStream

end ChangeCapture
