import ChangeCapture.Proofs.Places
import ChangeCapture.Proofs.Requests

/-! How far a stream has come, whatever is asked of it and whatever fails. It waits just while an
included file is open, has not started until a file header was read, and after its footer nothing is
read any more and nothing is held, so that all that can still go out is the summary of the transaction
at hand. -/
namespace ChangeCapture

namespace Parts

theorem release_none {p : Parts} (none_ : p.waits = []) : p.release = (p, []) := by
  have plain : ∀ held ∈ p.values, held.record.header.action.isRowChange = false := by
    intro held member
    have silent := List.filterMap_eq_nil_iff.mp none_ held member
    simpa [HeldRecord.wait?] using silent
  have stays : p.release.1 = p :=
    Registry.ext (List.filter_eq_self.mpr fun e member => by
      simp [plain e.2 (List.mem_map_of_mem member)])
  have goes : p.release.2 = [] := by
    rw [← List.map_eq_nil_iff (f := HeldRecord.offset), offset_release, none_]
  exact Prod.ext stays goes

end Parts

namespace Desk

variable (o : StreamOptions) {e : Entry} {d : Desk}

/-- Only a footer ends a file, and it never fails. -/
theorem process_done (reading : d.state.phase = .reading) :
    (process o e d).2.state.phase = .done ↔ e.kind = .footer := by
  rw [process_apply]
  rw [← phase_cleared o e] at reading
  by_cases footer : e.kind = .footer
  · rw [perform_footer o footer]
    exact iff_of_true rfl footer
  · refine iff_of_false (fun ended => ?_) footer
    by_cases include_ : e.kind = .includeFile
    · rw [perform_includeFile o include_] at ended
      split at ended
      · cases ended
      · cases reading.symm.trans ended
    · have kept := keeps_phase_perform o footer include_ d.nextId (d.reported e) (d.cleared o e)
      cases reading.symm.trans (kept.symm.trans ended)

theorem state_withTransactions (d : Desk) (t : Transactions)
    (finished : Option TransactionSummary) : ∃ handed : Option TransactionSummary,
      (d.withTransactions o.gates t finished).state = { d.state with
        batch := d.state.batch ++ handed.toList.map TransactionSummary.record
        cache := { d.state.cache with currentTransaction := t.current } } ∧
      (finished = none → handed = none) := by
  refine ⟨finished.filter fun s => o.delivers s.record, ?_, fun none_ => by rw [none_]; rfl⟩
  cases finished with
  | none => simp [withTransactions, withCache]
  | some s =>
    refine (state_emit o _ s.record).trans ?_
    cases delivered : o.delivers s.record <;> simp [delivered, withCache, Option.filter]

theorem waits_release (d : Desk) : (d.release o.gates).state.cache.parts.waits = [] := by
  rw [release_keeps (p := fun d => d.state.cache.parts) o.gates fun d r =>
    congrArg (fun d => d.state.cache.parts) (core_emit o.gates d r)]
  exact Parts.waits_release _

theorem waits_flushTransactions (d : Desk) :
    (d.flushTransactions o.gates).state.cache.parts.waits = [] := by
  obtain ⟨_, state, -⟩ := state_withTransactions o (d.release o.gates)
    (d.release o.gates).transactions.flush.1 (d.release o.gates).transactions.flush.2
  rw [flushTransactions, state]
  exact waits_release o d

theorem process_footer_waits (footer : e.kind = .footer) :
    (process o e d).2.state.cache.parts.waits = [] := by
  rw [process_apply, perform_footer o footer]
  show (d.cleared o e).state.cache.parts.waits = []
  rw [cleared, if_pos (by rw [footer]; decide)]
  exact waits_release o _

end Desk

namespace Transactions

theorem flush_current (t : Transactions) : t.flush.1.current = none := by
  unfold flush
  split
  · rfl
  next none_ => exact none_

theorem flush_none {t : Transactions} (none_ : t.current = none) : t.flush.2 = none := by
  rw [flush, none_]

end Transactions

/-- A footer of the file itself, and not of a file that it includes. -/
def Processed.Ends (p : Processed) : Prop :=
  p.entry.kind = .footer ∧ p.desk.state.reportAt = none

namespace Session

variable {o : StreamOptions} {depth : Nat} {s t : Session} {ps qs : List Processed}

/-- After its footer, which may be among some entries, a file holds no row. -/
structure Ended (ps : List Processed) (s : Session) : Prop where
  done : s.state.phase = .done ↔ ∃ p ∈ ps, p.Ends
  tidy : s.state.phase = .done → s.state.cache.parts.waits = []

theorem Ended.entry {e : Entry} {reader : ChunkReader} {opened : Option Included}
    (ended : Ended ps s) (reads : s.state.phase.readsEntries) (outside : s.state.reportAt = none) :
    Ended (ps ++ [s.processing e]) (s.afterEntry reader ((s.processing e).after o) opened) := by
  have before : ¬ ∃ p ∈ ps, p.Ends := by
    rw [← ended.done]
    intro done
    rw [done] at reads
    cases reads
  have done : ((s.processing e).after o).state.phase = .done ↔ e.kind = .footer :=
    Desk.process_done o rfl
  constructor
  · simp only [List.mem_append, or_and_right, exists_or, or_iff_right before, List.mem_singleton,
      exists_eq_left]
    exact done.trans (and_iff_left outside).symm
  · intro finished
    exact Desk.process_footer_waits o (done.mp finished)

/-- Entries of included files do not end the file itself. -/
theorem Ended.included {i : Included} {deeper : List Included} (ended : Ended ps s)
    (placed : Placed ps s) (open_ : s.included = i :: deeper)
    (stay : ∀ {place}, (s.inner i deeper).Pinned place →
      (∀ p ∈ qs, p.desk.state.reportAt = some place) ∧ t.Pinned place) :
    Ended (ps ++ qs) (s.outer i t) := by
  obtain ⟨place, -, pinned, -⟩ := placed.inside (by simp [open_])
  rw [open_] at pinned
  obtain ⟨inside, -⟩ := stay (List.forall_mem_cons.mp pinned)
  have none_ : ¬ ∃ p ∈ qs, p.Ends := by
    rintro ⟨p, member, -, outside⟩
    rw [inside p member] at outside
    cases outside
  refine ⟨?_, ended.tidy⟩
  simp only [List.mem_append, or_and_right, exists_or, or_iff_left none_]
  exact ended.done

theorem Ended.running (ended : Ended ps s) (running : s.state.phase ≠ .done) :
    ¬ ∃ p ∈ ps, p.Ends := fun last => running (ended.done.mpr last)

theorem Ended.step (ended : Ended ps s) (placed : Placed ps s) (nested : s.WellNested)
    (step : Step o depth s qs t) : Ended (ps ++ qs) t := by
  cases step with
  | header unopened =>
    rw [List.append_nil]
    exact ⟨iff_of_false nofun (ended.running (by rw [unopened]; nofun)), nofun⟩
  | entry reads => exact ended.entry reads placed.outside
  | included open_ _ step => exact ended.included placed open_ step.pinned
  | footer | close | handOn =>
    rw [List.append_nil]
    exact ⟨ended.done, ended.tidy⟩
  | resume open_ =>
    rw [List.append_nil]
    have paused := (nested.of_included open_).1
    exact ⟨iff_of_false nofun (ended.running (by rw [paused]; nofun)), nofun⟩

theorem Ended.fails {f : Failure} (ended : Ended ps s) (placed : Placed ps s)
    (fails : Fails o depth s qs f t) : Ended (ps ++ qs) t := by
  cases fails with
  | header | next | tooDeep =>
    rw [List.append_nil]
    exact ⟨ended.done, ended.tidy⟩
  | entry reads => exact ended.entry reads placed.outside
  | included open_ _ _ fails => exact ended.included placed open_ fails.pinned

theorem Fails.opened {f : Failure} (fails : Fails o depth s ps f t)
    (opened : s.state.phase ≠ .unopened) : t.state.phase ≠ .unopened := by
  cases fails with
  | header | next | tooDeep | included => exact opened
  | entry _ _ failed =>
    show (Processed.after o _).state.phase ≠ .unopened
    rw [Processed.failed_after o _ rfl failed]
    exact Phase.noConfusion

theorem Filled.opened {limit : Nat} {result : Except Failure Unit}
    (filled : Filled o depth limit s result t) (opened : s.state.phase ≠ .unopened) :
    t.state.phase ≠ .unopened := by
  cases filled with
  | ok path => exact path.opened opened
  | error path fails => exact fails.opened (path.opened opened)

theorem fill_serves (o : StreamOptions) (depth : Nat) :
    ∃ filler, Serves o depth filler ∧ fill o depth = fillWith o filler := by
  cases depth with
  | zero => exact ⟨tooDeep, serves_tooDeep, rfl⟩
  | succ depth =>
    exact ⟨fill o depth, serves_of_filled fun limit s nested => filled_fill depth limit nested, rfl⟩

theorem fill_unopened (limit : Nat) (nested : s.WellNested) (unopened : s.state.phase = .unopened) :
    (fill o depth limit s).2.state.phase = .unopened ↔
      ∃ f, (ChunkReader.fileHeader s.reader).1 = .error f := by
  obtain ⟨filler, serves, same⟩ := fill_serves o depth
  rw [same, fillWith, if_pos unopened]
  rcases header : ChunkReader.fileHeader s.reader with ⟨f | h, reader⟩
  · exact iff_of_true unopened ⟨f, rfl⟩
  · have step : Step o depth s [] _ := .header unopened header
    have filled := filled_run serves limit (step.wellNested nested) nofun
    exact iff_of_false (filled.opened nofun) nofun

/-- Nothing is read any more after the footer. -/
theorem fill_done (limit : Nat) (done : s.state.phase = .done) :
    fill o depth limit s = (.ok (), s) := by
  obtain ⟨filler, -, same⟩ := fill_serves o depth
  have stops : s.turn o filler limit = .stop (.ok ()) s := by
    unfold turn
    rw [done]
    split <;> rfl
  rw [same, fillWith, if_neg (by rw [done]; nofun)]
  unfold run
  split
  next stopped =>
    rw [stops] at stopped
    cases stopped
    rfl
  next again =>
    rw [stops] at again
    cases again

end Session

namespace LogStream

variable {s t : LogStream} {j k : Journal} {flushing : Prop} {ps : List Processed}
variable {taken : List DomainRecord}

theorem read_done (done : t.state.phase = .done) : t.read k = (.ok (), t, k) := by
  have nothing : Session.fill t.options (depth t.options) t.options.config.effectiveBatchSize
      (t.session k) = (.ok (), t.session k) := Session.fill_done _ done
  unfold LogStream.read
  rw [show (⟨t.toOpenFile, t.included, k⟩ : Session) = t.session k from rfl, nothing]
  rfl

theorem flushTransactions_tidy (tidy : t.state.cache.parts.waits = []) (k : Journal) :
    ∃ handed : Option TransactionSummary,
      (t.flushTransactions k).1 = { t with
        state := { t.state with
          batch := t.state.batch ++ handed.toList.map TransactionSummary.record
          cache := { t.state.cache with currentTransaction := none } } } ∧
      (t.state.cache.currentTransaction = none → handed = none) := by
  have idle : (Desk.mk t.state k).release t.options.gates = ⟨t.state, k⟩ := by
    rw [Desk.release, Parts.release_none tidy]
    rfl
  let open_ := (Desk.mk t.state k).transactions
  obtain ⟨handed, state, same⟩ := Desk.state_withTransactions t.options ⟨t.state, k⟩ open_.flush.1
    open_.flush.2
  refine ⟨handed, ?_, fun none_ => same (Transactions.flush_none none_)⟩
  rw [Transactions.flush_current] at state
  rw [flushTransactions, Desk.flushTransactions, idle]
  exact congrArg (fun state => { t with state }) state

theorem Course.ended (course : Course flushing s j ps taken t k)
    (placed : Session.Placed [] (s.session j)) (nested : (s.session j).WellNested)
    (running : s.state.phase ≠ .done) : Session.Ended ps (t.session k) := by
  induction course with
  | start => exact ⟨iff_of_false running (by simp), fun done => absurd done running⟩
  | step course step ih =>
    exact ih.step (course.placed placed nested) (course.wellNested nested) step
  | fail course fails ih => exact ih.fails (course.placed placed nested) fails
  | append _ _ ih | flush _ ih => exact ⟨ih.done, ih.tidy⟩
  | @flushTransactions ps taken t k _ _ ih =>
    have phase := phase_flushTransactions t k
    refine ⟨?_, fun _ => Desk.waits_flushTransactions t.options _⟩
    show (t.flushTransactions k).1.state.phase = .done ↔ _
    rw [phase]
    exact ih.done

theorem Starts.running {file : LogFile} {source : Source} {o : StreamOptions} {cache : Cache}
    (starts : Starts file source o cache s) : s.state.phase ≠ .done := by
  cases starts with
  | new => nofun
  | opened opened =>
    unfold LogStream.opened at opened
    dsimp only at opened
    split at opened <;> cases opened
    nofun

end LogStream

namespace Client

open LogStream

variable {s : LogStream} {j : Journal} {c d : Client} {handed : Option TransactionSummary}

theorem ask_unopened (nested : c.session.WellNested) (r : Request) :
    (c.ask r).stream.state.phase = .unopened ↔ c.stream.state.phase = .unopened ∧
      (r = .read → ∃ f, (ChunkReader.fileHeader c.stream.reader).1 = .error f) := by
  cases r with
  | read =>
    by_cases unopened : c.stream.state.phase = .unopened
    · rw [and_iff_right unopened, imp_iff_right rfl]
      exact Session.fill_unopened _ nested unopened
    · have filled := Session.filled_fill (o := c.stream.options) (depth c.stream.options)
        c.stream.options.config.effectiveBatchSize nested
      exact iff_of_false (filled.opened unopened) fun both => unopened both.1
  | flush => exact (and_iff_left nofun).symm
  | flushTransactions =>
    rw [and_iff_left nofun]
    exact Eq.congr_left (phase_flushTransactions c.stream c.journal)

theorem askAll_unopened (nested : (s.session j).WellNested) (requests : List Request) :
    ((ofStream s j).askAll requests).stream.state.phase = .unopened ↔
      s.state.phase = .unopened ∧ ∀ n, requests[n]? = some .read → ∃ f,
        (ChunkReader.fileHeader ((ofStream s j).askAll (requests.take n)).stream.reader).1 =
          .error f := by
  induction requests using List.reverseRecOn with
  | nil => simp [ofStream]
  | append_singleton requests r ih =>
    rw [askAll_snoc, ask_unopened (nested_askAll nested requests), ih, and_assoc]
    exact and_congr_right fun _ => (forall_snoc (p := fun earlier => ∃ f, (ChunkReader.fileHeader
      ((ofStream s j).askAll earlier).stream.reader).1 = .error f)).symm

/-- A client whose stream is done, once it was asked for more: a summary may have been handed out. -/
structure Closes (c d : Client) (handed : Option TransactionSummary) : Prop where
  stream : ∃ batch currentTransaction, d.stream = { c.stream with
    state := { c.stream.state with
      batch, cache := { c.stream.state.cache with currentTransaction } } }
  emitted : d.emitted = c.emitted ++ handed.toList.map TransactionSummary.record
  spent : handed.isSome → d.stream.state.cache.currentTransaction = none

theorem Closes.flushTransactions (closes : Closes c d handed)
    (tidy : c.stream.state.cache.parts.waits = []) :
    ∃ handed, Closes c (d.ask .flushTransactions) handed := by
  obtain ⟨⟨batch, current, stream⟩, emitted, spent⟩ := closes
  have tidyThen : d.stream.state.cache.parts.waits = [] := by
    rw [stream]
    exact tidy
  obtain ⟨more, after, none_⟩ := flushTransactions_tidy tidyThen d.journal
  have streamThen : (d.ask .flushTransactions).stream = _ := after
  have emittedThen : (d.ask .flushTransactions).emitted =
      d.emitted ++ more.toList.map TransactionSummary.record := by
    show d.taken ++ (d.ask .flushTransactions).stream.state.batch = _
    rw [streamThen, ← List.append_assoc]
    rfl
  rw [stream] at streamThen
  have currentThen : (d.ask .flushTransactions).stream.state.cache.currentTransaction = none := by
    rw [streamThen]
  rw [emitted] at emittedThen
  cases handed with
  | none => exact ⟨more, ⟨_, none, streamThen⟩, by simpa using emittedThen, fun _ => currentThen⟩
  | some summary =>
    rw [none_ (spent rfl)] at emittedThen
    exact ⟨some summary, ⟨_, none, streamThen⟩, by simpa using emittedThen, fun _ => currentThen⟩

theorem Closes.read (closes : Closes c d handed) (done : c.stream.state.phase = .done) :
    d.stream.read d.journal = (.ok (), d.stream, d.journal) := by
  obtain ⟨_, _, stream⟩ := closes.stream
  exact read_done (by rw [stream]; exact done)

theorem Closes.flush (closes : Closes c d handed) : Closes c (d.ask .flush) handed := by
  obtain ⟨⟨_, current, stream⟩, emitted, spent⟩ := closes
  refine ⟨⟨[], current, ?_⟩, ?_, spent⟩
  · show d.stream.flush.1 = _
    rw [stream]
    rfl
  · rw [← emitted]
    exact List.append_nil _

/-- Once a stream is done, one summary may be handed out, and nothing else happens. -/
theorem askAll_done (done : c.stream.state.phase = .done)
    (tidy : c.stream.state.cache.parts.waits = []) (more : List Request) :
    ∃ handed, Closes c (c.askAll more) handed ∧ (.flushTransactions ∉ more → handed = none) := by
  induction more using List.reverseRecOn with
  | nil => exact ⟨none, ⟨⟨_, _, rfl⟩, (List.append_nil _).symm, nofun⟩, fun _ => rfl⟩
  | append_singleton more r ih =>
    obtain ⟨handed, closes, quiet⟩ := ih
    have quietThen (never : .flushTransactions ∉ more ++ [r]) : handed = none :=
      quiet fun member => never (List.mem_append_left _ member)
    rw [askAll_snoc]
    cases r with
    | read =>
      have same : (c.askAll more).ask .read = c.askAll more := by
        rw [ask, closes.read done]
      rw [same]
      exact ⟨handed, closes, quietThen⟩
    | flush => exact ⟨handed, closes.flush, quietThen⟩
    | flushTransactions =>
      obtain ⟨handed, closes⟩ := closes.flushTransactions tidy
      exact ⟨handed, closes, fun never => absurd (by simp) never⟩

/-- Whatever is asked of a stream and whatever fails, it is paused just while an included file is open,
and unopened just while no header was read; and it is done once the footer was processed, after which
nothing is read, nothing changes but the batch and the transaction at hand, and only the summary of
that transaction may still be emitted, where the stream is told to. -/
theorem asked_phases {file : LogFile} {source : Source} {o : StreamOptions} {cache : Cache}
    (starts : Starts file source o cache s) (j : Journal) (requests : List Request) :
    let c := (ofStream s j).askAll requests
    (c.stream.state.phase = .paused ↔ c.stream.included ≠ []) ∧
    (c.stream.state.phase = .unopened ↔
      s.state.phase = .unopened ∧ ∀ n, requests[n]? = some .read → ∃ f,
        (ChunkReader.fileHeader ((ofStream s j).askAll (requests.take n)).stream.reader).1 =
          .error f) ∧
    (∃ ps, Course True s j ps c.taken c.stream c.journal ∧
      (c.stream.state.phase = .done ↔ ∃ p ∈ ps, p.Ends)) ∧
    (c.stream.state.phase = .done → ∀ more,
      let d := c.askAll more
      d.stream.read d.journal = (.ok (), d.stream, d.journal) ∧
      (∃ batch currentTransaction, d.stream = { c.stream with
        state := { c.stream.state with
          batch, cache := { c.stream.state.cache with currentTransaction } } }) ∧
      ∃ handed : Option TransactionSummary,
        d.emitted = c.emitted ++ handed.toList.map TransactionSummary.record ∧
        (.flushTransactions ∉ more → handed = none)) := by
  intro c
  have nested := starts.wellNested j
  obtain ⟨ps, course⟩ := course_askAll nested requests
  have ended := course.ended (starts.placed j) nested starts.running
  refine ⟨(course.wellNested nested).paused_of_included, askAll_unopened nested requests,
    ⟨ps, course, ended.done⟩, fun done more => ?_⟩
  obtain ⟨handed, closes, quiet⟩ := askAll_done done (ended.tidy done) more
  exact ⟨closes.read done, closes.stream, handed, closes.emitted, quiet⟩

/-- A row, an included file of two records and the footer, record by record: paused in between, done
with the last record, and then told to emit what it has, twice. -/
theorem asked_phases_included :
    let words (chunks : List UInt32) : List UInt8 := chunks.flatMap bytesOfChunk
    let inner : Source := [.bytes (signature ++ words [1, 0, 3, 2, 8, 3, 2, 8])]
    let insert := Entry.encode 2 1
      [(0x0100, [1, 0x31]), (0x0101, [7, 0]), (0x0102, [1700000000, 0])]
    let source : Source := [.bytes (signature ++ words [1, 0] ++ insert ++
      words [7, 2, 9, 4, 0x0501, 1, 0x62, 3, 0, 1])]
    let o : StreamOptions :=
      ⟨⟨some 1, true, .row, false⟩, .accepting, some (.named (.ofList [("b", inner)]))⟩
    let s := ofSource ⟨3, 5, "a"⟩ source o .empty
    let few : List Request := [.read, .flush, .read]
    let all := few ++ [.flush, .read, .flush, .read]
    ((ofStream s .empty).askAll few).stream.state.phase = .paused ∧
      ((ofStream s .empty).askAll few).stream.included ≠ [] ∧
      ((ofStream s .empty).askAll all).stream.state.phase = .done ∧
      ((ofStream s .empty).askAll all).emitted.length = 3 ∧
      (((ofStream s .empty).askAll all).askAll
        [.flushTransactions, .read, .flushTransactions]).emitted.length = 4 ∧
      ∀ more, ∃ handed : Option TransactionSummary,
        (((ofStream s .empty).askAll all).askAll more).emitted =
          ((ofStream s .empty).askAll all).emitted ++
            handed.toList.map TransactionSummary.record ∧
        (.flushTransactions ∉ more → handed = none) := by
  intro words inner insert source o s few all
  have starts : Starts ⟨3, 5, "a"⟩ source o .empty s := .new
  obtain ⟨open_, -⟩ := asked_phases starts .empty few
  obtain ⟨-, -, -, last⟩ := asked_phases starts .empty all
  have paused : ((ofStream s .empty).askAll few).stream.state.phase = .paused := by decide +kernel
  have done : ((ofStream s .empty).askAll all).stream.state.phase = .done := by decide +kernel
  exact ⟨paused, open_.mp paused, done, by decide +kernel, by decide +kernel,
    fun more => (last done more).2.2⟩

end Client

end ChangeCapture
