import ChangeCapture.Proofs.Selection

/-! Streams that are read batch by batch until their input ends. Neither the records nor what is
left of the stream depend on how large a batch is, and the gates for records only select. -/
namespace ChangeCapture

namespace StreamOptions

/-- The same options with another batch size and other gates for records. -/
def delivering (o : StreamOptions) (batchSize : Option Nat) (persist filter : GateInput → Bool) :
    StreamOptions :=
  { o with
    config := { o.config with batchSize }
    gates := (o.gates.replacing .persist persist).replacing .filter filter }

theorem decodes_delivering (o : StreamOptions) (batchSize batchSize' : Option Nat)
    (persist filter persist' filter' : GateInput → Bool) :
    (o.delivering batchSize persist filter).Decodes (o.delivering batchSize' persist' filter') :=
  ⟨rfl, rfl, rfl, rfl, rfl⟩

/-- Options under which every record is delivered. -/
def deliveringAll (o : StreamOptions) : StreamOptions :=
  o.delivering none (fun _ => true) (fun _ => true)

theorem delivering_deliveringAll (o : StreamOptions) : o.deliveringAll.Delivering :=
  fun _ => ⟨rfl, rfl⟩

theorem delivers_delivering (o : StreamOptions) (batchSize : Option Nat)
    (persist filter : GateInput → Bool) :
    (o.delivering batchSize persist filter).delivers =
      fun r => persist (.ofRecord r) && filter (.ofRecord r) := rfl

end StreamOptions

namespace LogStream

def session (s : LogStream) (j : Journal) : Session := ⟨s.toOpenFile, s.included, j⟩

/-- Reads batch after batch, takes the records of each, and stops at the footer or where the input
ends. -/
inductive Drains : LogStream → Journal → List DomainRecord → LogStream → Journal → Prop where
  | done {s j t k} : s.read j = (.ok (), t, k) → t.isDone → Drains s j t.flush.2 t.flush.1 k
  | closed {s j t k} : s.read j = (.error .streamClosed, t, k) → Drains s j t.flush.2 t.flush.1 k
  | more {s j t k records u l} : s.read j = (.ok (), t, k) → t.isDone = false →
      Drains t.flush.1 k records u l → Drains s j (t.flush.2 ++ records) u l

/-- Reads batch after batch, takes the records of each, and stops at a read that fails. -/
inductive Breaks :
    LogStream → Journal → List DomainRecord → Failure → LogStream → Journal → Prop where
  | failed {s j f t k} : s.read j = (.error f, t, k) → f ≠ .streamClosed →
      Breaks s j t.flush.2 f t.flush.1 k
  | more {s j t k records f u l} : s.read j = (.ok (), t, k) → t.isDone = false →
      Breaks t.flush.1 k records f u l → Breaks s j (t.flush.2 ++ records) f u l

variable {s t : LogStream} {j k : Journal}

theorem read_eq (ok : (s.read j).1.isOk) : s.read j = (.ok (), (s.read j).2.1, (s.read j).2.2) := by
  rcases read : s.read j with ⟨_ | _, t, k⟩
  · simp [read, Except.isOk, Except.toBool] at ok
  · rfl

theorem Drains.readOn {records : List DomainRecord} (ok : (s.read j).1.isOk)
    (busy : (s.read j).2.1.isDone = false)
    (rest : Drains (s.read j).2.1.flush.1 (s.read j).2.2 records t k) :
    Drains s j ((s.read j).2.1.flush.2 ++ records) t k :=
  .more (read_eq ok) busy rest

theorem Drains.readLast (ok : (s.read j).1.isOk) (done : (s.read j).2.1.isDone) :
    Drains s j (s.read j).2.1.flush.2 (s.read j).2.1.flush.1 (s.read j).2.2 :=
  .done (read_eq ok) done

theorem read_filled {result : Except Failure Unit} (read : s.read j = (result, t, k))
    (nested : (s.session j).WellNested) :
    t.options = s.options ∧ Session.Filled s.options (depth s.options)
      s.options.config.effectiveBatchSize (s.session j) result (t.session k) := by
  have filled := Session.filled_fill (o := s.options) (depth s.options)
    s.options.config.effectiveBatchSize nested
  unfold LogStream.read at read
  cases read
  exact ⟨rfl, filled⟩

/-- What a read does to the reading of the whole. -/
theorem read_leads {result : Except Failure Unit} (read : s.read j = (result, t, k))
    (nested : (s.session j).WellNested) :
    t.options = s.options ∧ Session.Leads s.options (depth s.options) (s.session j) result
      (t.session k) := by
  obtain ⟨options, filled⟩ := read_filled read nested
  exact ⟨options, filled.leads nested⟩

/-- What is left to decode, as a whole. -/
def rest (s : LogStream) (j : Journal) : Outcome :=
  Session.decode s.options (depth s.options) (s.session j).bare

theorem waiting_of_alone (alone : t.included = []) : (t.session k).waiting = t.flush.2 := by
  simp [session, Session.waiting, alone, Included.waiting, flush]

theorem waiting_flush (t : LogStream) (k : Journal) :
    (t.session k).waiting = t.flush.2 ++ (t.flush.1.session k).waiting := by
  simp [session, Session.waiting, flush]

theorem rest_flush (t : LogStream) (k : Journal) : t.flush.1.rest k = t.rest k := rfl

/-- What a stream emits at the end comes after what it has got so far. -/
theorem flushTransactions_batch (t : LogStream) (k : Journal) :
    (t.flushTransactions k).1.flush.2 = t.flush.2 ++
      (Desk.flushTransactions t.options.gates ⟨{ t.state with batch := [] }, k⟩).state.batch := by
  let d : Desk := ⟨{ t.state with batch := [] }, k⟩
  have whole : (⟨t.state, k⟩ : Desk) = d.prepend t.state.batch := by simp [d, Desk.prepend]
  have flushed : (Desk.mk t.state k).flushTransactions t.options.gates =
      (d.flushTransactions t.options.gates).prepend t.state.batch := by
    rw [whole]
    exact (Desk.congruence_prepend t.options t.state.batch).flushTransactions rfl
  exact congrArg (fun d => d.state.batch) flushed

/-- After a batch the same is left to decode, without what the batch has got. -/
theorem rest_of_read (read : s.read j = (.ok (), t, k)) (nested : (s.session j).WellNested) :
    ∃ ps, s.rest j = (t.rest k).after ps ∧
      (t.session k).waiting = (s.session j).waiting ++ Processed.allRecords s.options ps ∧
      (t.session k).WellNested := by
  obtain ⟨options, leads⟩ := read_leads read nested
  cases leads with
  | @ok ps _ continues nestedThen =>
    refine ⟨ps, ?_, continues.waiting, nestedThen⟩
    rw [rest, rest, options]
    exact continues.decode

theorem progress_of_read (read : s.read j = (.ok (), t, k)) (busy : t.isDone = false) :
    1 ≤ t.flush.2.length :=
  Nat.le_trans (Nat.le_max_left 1 _) ((full_of_read read).resolve_right (by simp [busy]))

theorem rest_of_done (done : t.isDone) (nested : (t.session k).WellNested) :
    t.rest k = ⟨[], .ok (), (t.session k).bare⟩ ∧ (t.session k).waiting = t.flush.2 := by
  have phase : t.state.phase = .done := by simpa [isDone] using done
  refine ⟨Session.decode_done phase, waiting_of_alone (nested.included_nil ?_)⟩
  rw [show (t.session k).state.phase = _ from phase]
  nofun

theorem rest_of_failed {f : Failure} (read : s.read j = (.error f, t, k))
    (nested : (s.session j).WellNested) :
    ∃ ps, s.rest j = ⟨ps, .error f, (t.session k).bare⟩ ∧
      (t.session k).waiting = (s.session j).waiting ++ Processed.allRecords s.options ps ∧
      (f = .streamClosed → t.included = []) := by
  obtain ⟨_, leads⟩ := read_leads read nested
  cases leads with
  | @error ps _ _ stops alone => exact ⟨ps, stops.decode, stops.waiting, alone⟩

theorem Drains.rest {records : List DomainRecord} (drains : Drains s j records t k)
    (nested : (s.session j).WellNested) :
    (s.rest j).isClean ∧ records = (s.session j).waiting ++ (s.rest j).records s.options ∧
      (s.rest j).session = (t.session k).bare := by
  induction drains with
  | done read done =>
    obtain ⟨ps, rest, waiting, nestedThen⟩ := rest_of_read read nested
    obtain ⟨last, taken⟩ := rest_of_done done nestedThen
    rw [rest, last]
    refine ⟨rfl, ?_, rfl⟩
    rw [← taken, waiting]
    simp [Outcome.records, Outcome.after]
  | closed read =>
    obtain ⟨ps, rest, waiting, alone⟩ := rest_of_failed read nested
    rw [rest]
    refine ⟨rfl, ?_, rfl⟩
    rw [← waiting_of_alone (alone rfl), waiting]
    rfl
  | @more s j t k records u l read _ _ ih =>
    obtain ⟨ps, rest, waiting, nestedThen⟩ := rest_of_read read nested
    obtain ⟨clean, all, last⟩ := ih nestedThen
    rw [rest_flush] at clean all last
    have options : t.flush.1.options = s.options := (read_leads read nested).1
    rw [rest]
    refine ⟨clean, ?_, last⟩
    rw [all, ← List.append_assoc, ← waiting_flush, waiting, options]
    simp

theorem Breaks.rest {records : List DomainRecord} {f : Failure} (breaks : Breaks s j records f t k)
    (nested : (s.session j).WellNested) :
    (s.rest j).result = .error f ∧ f ≠ .streamClosed ∧
      records ++ (t.session k).waiting = (s.session j).waiting ++ (s.rest j).records s.options ∧
      (s.rest j).session = (t.session k).bare := by
  induction breaks with
  | failed read lasting =>
    obtain ⟨ps, rest, waiting, _⟩ := rest_of_failed read nested
    rw [rest]
    refine ⟨rfl, lasting, ?_, rfl⟩
    rw [← waiting_flush, waiting]
    rfl
  | @more s j t k records f u l read _ _ ih =>
    obtain ⟨ps, rest, waiting, nestedThen⟩ := rest_of_read read nested
    obtain ⟨failed, lasting, all, last⟩ := ih nestedThen
    rw [rest_flush] at failed all last
    have options : t.flush.1.options = s.options := (read_leads read nested).1
    rw [rest]
    refine ⟨failed, lasting, ?_, last⟩
    rw [List.append_assoc, all, ← List.append_assoc, ← waiting_flush, waiting, options]
    simp

/-- Reading on comes to an end or fails, since every batch takes a record of those that are left. -/
theorem drains_or_breaks (nested : (s.session j).WellNested) :
    (∃ records t k, Drains s j records t k) ∨ ∃ records f t k, Breaks s j records f t k := by
  generalize size : ((s.session j).waiting ++ (s.rest j).records s.options).length = n
  induction n using Nat.strongRecOn generalizing s j with
  | ind n ih =>
    rcases read : s.read j with ⟨f | _, t, k⟩
    · by_cases closed : f = .streamClosed
      · subst closed
        exact .inl ⟨_, _, _, .closed read⟩
      · exact .inr ⟨_, _, _, _, .failed read closed⟩
    · by_cases done : t.isDone
      · exact .inl ⟨_, _, _, .done read done⟩
      · have busy : t.isDone = false := by simpa using done
        obtain ⟨ps, rest, waiting, nestedThen⟩ := rest_of_read read nested
        have progress := progress_of_read read busy
        have smaller : ((t.flush.1.session k).waiting ++
            (t.flush.1.rest k).records t.flush.1.options).length < n := by
          have first := congrArg List.length (waiting_flush t k)
          rw [rest, Outcome.records_after, ← List.append_assoc, ← waiting] at size
          rw [rest_flush, show t.flush.1.options = s.options from (read_leads read nested).1]
          simp only [List.length_append] at first size ⊢
          omega
        rcases ih _ smaller (s := t.flush.1) (j := k) nestedThen rfl with
          ⟨records, u, l, drains⟩ | ⟨records, f, u, l, breaks⟩
        · exact .inl ⟨_, _, _, .more read busy drains⟩
        · exact .inr ⟨_, _, _, _, .more read busy breaks⟩

/-- A stream whose rest can be decoded can be drained. -/
theorem drains_of_clean (nested : (s.session j).WellNested) (clean : (s.rest j).isClean) :
    ∃ t k, Drains s j ((s.session j).waiting ++ (s.rest j).records s.options) t k := by
  rcases drains_or_breaks nested with ⟨records, t, k, drains⟩ | ⟨records, f, t, k, breaks⟩
  · obtain ⟨-, rfl, -⟩ := drains.rest nested
    exact ⟨t, k, drains⟩
  · obtain ⟨failed, lasting, -⟩ := breaks.rest nested
    simp [Outcome.isClean, failed, Failure.isFatal, lasting] at clean

/-- A stream at the start of a file, whose header may have been read. -/
inductive Starts (file : LogFile) (source : Source) (o : StreamOptions) (cache : Cache) :
    LogStream → Prop where
  | new : Starts file source o cache (.ofSource file source o cache)
  | opened {r} : opened file source o cache = .ok r → Starts file source o cache r

variable {file : LogFile} {source : Source} {o : StreamOptions} {cache : Cache}

theorem Starts.fresh (starts : Starts file source o cache s) :
    s.options = o ∧ s.included = [] ∧ s.state.batch = [] ∧ s.state.cache = cache ∧
      s.state.phase ≠ .paused := by
  cases starts with
  | new => exact ⟨rfl, rfl, rfl, rfl, Phase.noConfusion⟩
  | opened opened =>
    unfold LogStream.opened at opened
    dsimp only at opened
    split at opened <;> cases opened
    exact ⟨rfl, rfl, rfl, rfl, Phase.noConfusion⟩

theorem Starts.wellNested (starts : Starts file source o cache s) (j : Journal) :
    (s.session j).WellNested := by
  obtain ⟨-, alone, -, -, running⟩ := starts.fresh
  show Nested s.state.phase s.included
  rw [alone]
  exact running

theorem Starts.waiting (starts : Starts file source o cache s) (j : Journal) :
    (s.session j).waiting = [] := by
  obtain ⟨-, alone, empty, -⟩ := starts.fresh
  rw [waiting_of_alone alone, flush, empty]

/-- It makes no difference whether the header was read. -/
theorem Starts.rest (starts : Starts file source o cache s) (j : Journal) :
    s.rest j = (ofSource file source o cache).rest j := by
  cases starts with
  | new => rfl
  | opened opened =>
    unfold LogStream.opened at opened
    dsimp only at opened
    split at opened <;> cases opened
    next h reader read =>
      exact (Session.decode_header (s := ((ofSource file source o cache).session j).bare)
        rfl read).symm

theorem rest_unopened {f : Failure} {reader : ChunkReader}
    (failed : ChunkReader.fileHeader (.ofSource source) = (.error f, reader)) (j : Journal) :
    (ofSource file source o cache).rest j =
      ⟨[], .error f, { (ofSource file source o cache).session j with reader }⟩ :=
  Session.decode_unopened (s := (ofSource file source o cache).session j) rfl failed

theorem rest_opened {h : FileHeader} {reader : ChunkReader}
    (read : ChunkReader.fileHeader (.ofSource source) = (.ok h, reader)) (j : Journal) :
    (ofSource file source o cache).rest j =
      Session.whole o (Session.decodeInner o (depth o))
        { (ofSource file source o cache).session j with
          reader
          state := { (ofSource file source o cache).state with phase := .headerRead } } :=
  (Session.decode_header (s := (ofSource file source o cache).session j) rfl read).trans
    (Session.decode_of_opened Phase.noConfusion)

/-- Whatever the size of a batch, the gates select among the records of the whole file. -/
theorem Starts.selects {batchSize : Option Nat} {persist filter : GateInput → Bool}
    (starts : Starts file source (o.delivering batchSize persist filter) cache s) (j : Journal) :
    (s.rest j).Selects (o.delivering batchSize persist filter) o.deliveringAll
      ((ofSource file source o.deliveringAll cache).rest j) := by
  rw [starts.rest j]
  exact Session.decode_selects (o.decodes_delivering ..) o.delivering_deliveringAll (depth o) rfl

/-- Streams of one file that differ in the size of a batch and in the gates for records. If one of
them can be drained then so can all of them; each delivers what passes its own gates out of one list
of records, and all end with the same cache. -/
theorem drains_delivering {records : List DomainRecord} {batchSize : Option Nat}
    {persist filter : GateInput → Bool}
    (starts : Starts file source (o.delivering batchSize persist filter) cache s)
    (drains : Drains s j records t k) :
    ∃ all : List DomainRecord,
      records = all.filter (fun r => persist (.ofRecord r) && filter (.ofRecord r)) ∧
      ∀ (batchSize' : Option Nat) (persist' filter' : GateInput → Bool) (s' : LogStream),
        Starts file source (o.delivering batchSize' persist' filter') cache s' →
        ∃ t' k', Drains s' j
            (all.filter (fun r => persist' (.ofRecord r) && filter' (.ofRecord r))) t' k' ∧
          t'.state.cache = t.state.cache ∧ k'.summaries = k.summaries := by
  have nothing := starts.waiting j
  have options := starts.fresh.1
  obtain ⟨clean, delivered, last⟩ := drains.rest (starts.wellNested j)
  obtain ⟨result, selected, core⟩ := starts.selects j
  refine ⟨((ofSource file source o.deliveringAll cache).rest j).records o.deliveringAll, ?_, ?_⟩
  · rw [delivered, nothing, options, List.nil_append, selected, StreamOptions.delivers_delivering]
  · intro batchSize' persist' filter' s' starts'
    have nothing' := starts'.waiting j
    have options' := starts'.fresh.1
    obtain ⟨result', selected', core'⟩ := starts'.selects j
    have clean' : (s'.rest j).isClean := by
      rw [Outcome.isClean, result', ← result]
      exact clean
    obtain ⟨t', k', drains'⟩ := drains_of_clean (starts'.wellNested j) clean'
    obtain ⟨_, _, last'⟩ := drains'.rest (starts'.wellNested j)
    have cores : (t'.session k').core = (t.session k).core := by
      rw [← Session.core_bare, ← last', core', ← core, last, Session.core_bare]
    refine ⟨t', k', ?_, congrArg (fun c => c.state.cache) cores,
      congrArg (fun c => c.journal.summaries) cores⟩
    rw [nothing', options', List.nil_append, selected',
      StreamOptions.delivers_delivering] at drains'
    exact drains'

/-- A file that includes another one, read record by record and without the record that follows the
included file. -/
theorem drains_delivering_included :
    let words (chunks : List UInt32) : List UInt8 := chunks.flatMap bytesOfChunk
    let inner : Source := [.bytes (signature ++ words [1, 0, 3, 2, 8, 3, 2, 8])]
    let source : Source := [.bytes (signature ++
      words [1, 0, 7, 2, 9, 4, 0x0501, 1, 0x62, 3, 2, 8, 3, 0, 1])]
    let o : StreamOptions :=
      ⟨⟨none, true, .row, false⟩, .accepting, some (.named (.ofList [("b", inner)]))⟩
    let early (input : GateInput) : Bool := input.offset.byteOffset < 40
    let s := ofSource ⟨3, 5, "a"⟩ source (o.delivering (some 1) early fun _ => true) .empty
    ∃ records t k, Drains s .empty records t k ∧ records.length = 2 ∧
      ∃ all : List DomainRecord,
        records = all.filter (fun r => early (.ofRecord r) && true) ∧
        ∀ (batchSize' : Option Nat) (persist' filter' : GateInput → Bool) (s' : LogStream),
          Starts ⟨3, 5, "a"⟩ source (o.delivering batchSize' persist' filter') .empty s' →
          ∃ t' k', Drains s' .empty
              (all.filter (fun r => persist' (.ofRecord r) && filter' (.ofRecord r))) t' k' ∧
            t'.state.cache = t.state.cache ∧ k'.summaries = k.summaries := by
  intro words inner source o early s
  obtain ⟨records, t, k, drains, length⟩ : ∃ records t k, Drains s .empty records t k ∧
      records.length = 2 :=
    ⟨_, _, _, .readOn (by decide +kernel) (by decide +kernel)
      (.readOn (by decide +kernel) (by decide +kernel)
        (.readLast (by decide +kernel) (by decide +kernel))), by decide +kernel⟩
  exact ⟨records, t, k, drains, length, drains_delivering .new drains⟩

end LogStream

end ChangeCapture
