import ChangeCapture.Proofs.Courses
import ChangeCapture.Proofs.Ledger

/-! Rows come before the summaries that count them. Only the file that is read at the time holds rows
and is within a transaction, so what the entries of a run do to its books is the same as if they stood
in one file; unless an entry overtakes a row, each summary finds all changes gone that stem from
entries before it. -/
namespace ChangeCapture

open DomainRecord Sighting

def Desk.books (d : Desk) : Parts × Transactions := (d.state.cache.parts, d.transactions)

namespace Session

variable {o : StreamOptions} {depth : Nat}

/-- The cache of the file that is read at the time. -/
def front (s : Session) : Cache :=
  (s.state.cache :: s.included.map (fun i => i.state.cache)).getLast (List.cons_ne_nil _ _)

/-- What is held, and the transaction at hand. -/
def books (s : Session) : Parts × Transactions :=
  (s.front.parts, ⟨s.front.currentTransaction, s.journal.summaries⟩)

theorem front_alone {s : Session} (alone : s.included = []) : s.front = s.state.cache := by
  simp [front, alone]

theorem front_included {s : Session} {i : Included} {deeper : List Included}
    (open_ : s.included = i :: deeper) : s.front = (s.inner i deeper).front := by
  simp [front, open_, inner]

theorem books_included {s : Session} {i : Included} {deeper : List Included}
    (open_ : s.included = i :: deeper) : s.books = (s.inner i deeper).books := by
  rw [books, front_included open_]
  rfl

/-- What is processed between two sessions: nothing, or an entry on the books of the first. -/
inductive Between (o : StreamOptions) (s t : Session) : List Processed → Prop where
  | nothing : t.books = s.books → Between o s t []
  | entry {p} : p.desk.books = s.books → p.desk.state.batch = [] →
      t.books = (p.after o).books → Between o s t [p]

theorem Between.outer {s t : Session} {i : Included} {deeper : List Included} {ps : List Processed}
    (open_ : s.included = i :: deeper) (between : Between o (s.inner i deeper) t ps) :
    Between o s (s.outer i t) ps := by
  have after : (s.outer i t).books = t.books := books_included (s := s.outer i t) rfl
  cases between with
  | nothing same => exact .nothing (by rw [after, same, books_included open_])
  | entry found empty left =>
    exact .entry (by rw [found, books_included open_]) empty (after.trans left)

theorem between_entry {s : Session} {e : Entry} {reader : ChunkReader} {opened : Option Included}
    (alone : s.included = [])
    (fresh : ∀ i ∈ opened, i.state.cache = ((s.processing e).after o).state.cache) :
    Between o s (s.afterEntry reader ((s.processing e).after o) opened) [s.processing e] := by
  refine .entry (by rw [books, front_alone alone]; rfl) rfl ?_
  have front : (s.afterEntry reader ((s.processing e).after o) opened).front =
      ((s.processing e).after o).state.cache := by
    cases opened with
    | none => rfl
    | some i => exact fresh i rfl
  rw [books, front]
  rfl

theorem Step.between {s t : Session} {ps : List Processed} (step : Step o depth s ps t)
    (nested : s.WellNested) : Between o s t ps := by
  induction step with
  | header => exact .nothing rfl
  | entry reads _ done =>
    refine between_entry (nested.alone_of_reads reads) fun i member => ?_
    rcases Processed.phase_after o _ rfl done with ⟨rfl, _⟩ | ⟨_, rfl, _, fresh⟩
    · cases member
    · cases member
      exact fresh.cache
  | included open_ _ _ ih => exact (ih (nested.of_included open_).2.2).outer open_
  | footer open_ | close open_ | handOn _ open_ | resume open_ =>
    refine .nothing ?_
    rw [books_included open_]
    rfl

theorem Fails.between {s t : Session} {ps : List Processed} {f : Failure}
    (fails : Fails o depth s ps f t) (nested : s.WellNested) : Between o s t ps := by
  induction fails with
  | header | next | tooDeep => exact .nothing rfl
  | entry reads => exact between_entry (nested.alone_of_reads reads) nofun
  | included open_ _ _ _ ih => exact (ih (nested.of_included open_).2.2).outer open_

end Session

theorem summary_append {out more before after : List Line} {s : TransactionSummary}
    (split : out ++ more = before ++ .summary s :: after) :
    (∃ rest, out = before ++ .summary s :: rest) ∨
      ∃ first, before = out ++ first ∧ more = first ++ .summary s :: after := by
  rcases List.append_eq_append_iff.mp split with ⟨first, rfl, rest⟩ | ⟨rest, rfl, same⟩
  · exact .inr ⟨first, rfl, rest⟩
  · cases rest with
    | nil => exact .inr ⟨[], by simp, same.symm⟩
    | cons l rest =>
      obtain ⟨rfl, _⟩ := List.cons.inj same
      exact .inl ⟨rest, rfl⟩

/-- A summary is that of the last run of some first entries, and all that these come to has gone out
before it. -/
def SumsUp (o : StreamOptions) (ps : List Processed) (before : List Line) (s : TransactionSummary) :
    Prop :=
  ∃ earlier later, ps = earlier ++ later ∧ origins before = earlier.flatMap (Processed.sources o) ∧
    ∃ run, (runs (earlier.flatMap (Processed.calls o))).getLast? = some run ∧ s = summary run

theorem SumsUp.append {o : StreamOptions} {ps : List Processed} {before : List Line}
    {s : TransactionSummary} (sums : SumsUp o ps before s) (p : Processed) :
    SumsUp o (ps ++ [p]) before s := by
  obtain ⟨earlier, later, rfl, out, last⟩ := sums
  exact ⟨earlier, later ++ [p], List.append_assoc .., out, last⟩

/-- What has gone out and what is held after some entries, where no summary has come too early. -/
structure InOrder (o : StreamOptions) (ps : List Processed) (out : List Line)
    (books : Parts × Transactions) : Prop where
  balance : origins out ++ books.1.rows.map ChangeHeader.origin = ps.flatMap (Processed.sources o)
  order : ∀ before s after, out = before ++ .summary s :: after → SumsUp o ps before s
  transactions : books.2 = .within (runs (ps.flatMap (Processed.calls o))).getLast?
  tidy : books.1.Tidy
  apart : o.pairs = false → books.1.Settled

namespace Processed

variable (o : StreamOptions) {p : Processed}

theorem selected (empty : p.desk.state.batch = []) :
    p.result o = p.result o.deliveringAll ∧
      Desk.Selected o (p.after o) (p.after o.deliveringAll) := by
  have alike : o.Decodes o.deliveringAll := ⟨rfl, rfl, rfl, rfl, rfl⟩
  refine (Desk.congruence_selected alike o.delivering_deliveringAll).process p.entry p.desk p.desk
    ⟨rfl, ?_⟩
  rw [empty]
  rfl

theorem accepted_deliveringAll (empty : p.desk.state.batch = []) :
    p.accepted o.deliveringAll = p.accepted o := by
  rw [accepted, accepted, (selected o empty).1]

theorem sources_deliveringAll (empty : p.desk.state.batch = []) :
    p.sources o.deliveringAll = p.sources o := by
  rw [sources, accepted_deliveringAll o empty]
  rfl

theorem calls_deliveringAll (empty : p.desk.state.batch = []) :
    p.calls o.deliveringAll = p.calls o := by
  rw [calls, accepted_deliveringAll o empty]
  rfl

theorem books_deliveringAll (empty : p.desk.state.batch = []) :
    (p.after o.deliveringAll).books = (p.after o).books := by
  show (p.after o.deliveringAll).core.books = (p.after o).core.books
  rw [(selected o empty).2.core]

end Processed

theorem Session.Between.selected {o : StreamOptions} {s t : Session} {ps : List Processed}
    (between : Between o s t ps) : Processed.allRecords o ps =
      (Processed.allRecords o.deliveringAll ps).filter o.delivers := by
  cases between with
  | nothing => rfl
  | entry _ empty =>
    rw [Processed.allRecords_singleton, Processed.allRecords_singleton]
    exact (Processed.selected o empty).2.batch

/-- One more entry, which overtakes no row. -/
theorem InOrder.entry {o : StreamOptions} {ps : List Processed} {out : List Line}
    {books : Parts × Transactions} {p : Processed} (inOrder : InOrder o ps out books)
    (found : p.desk.books = books) (empty : p.desk.state.batch = []) (inTime : ¬ p.Overtakes o) :
    InOrder o (ps ++ [p]) (out ++ lines (p.records o.deliveringAll)) (p.after o).books := by
  subst found
  obtain ⟨balance, order, transactions, tidy, apart⟩ := inOrder
  have posts : p.Posts o.deliveringAll (ps.flatMap (Processed.calls o)) :=
    Processed.posts o.delivering_deliveringAll empty tidy apart transactions
      fun ⟨lob, held, refused, other⟩ => inTime ⟨lob, held, refused, other⟩
  obtain ⟨balanceAfter, orderAfter, transactionsAfter, tidyAfter, apartAfter⟩ := posts
  rw [Processed.sources_deliveringAll o empty] at balanceAfter
  rw [Processed.calls_deliveringAll o empty] at transactionsAfter
  rw [← Processed.books_deliveringAll o empty]
  constructor
  case balance =>
    rw [origins_append, List.append_assoc, List.flatMap_append, ← balance, List.flatMap_singleton,
      List.append_assoc]
    exact congrArg (origins out ++ ·) balanceAfter
  case order =>
    intro before s after split
    rcases summary_append split with ⟨rest, earlier⟩ | ⟨first, rfl, here⟩
    · exact (order before s rest earlier).append p
    · obtain ⟨rows, run⟩ := orderAfter first s after here
      refine ⟨ps, [p], rfl, ?_, run⟩
      rw [origins_append, rows]
      exact balance
  case transactions =>
    rw [List.flatMap_append, List.flatMap_singleton]
    exact transactionsAfter
  case tidy => exact tidyAfter
  case apart => exact apartAfter

/-- Once the stream is told to emit what it holds, all changes have gone out. -/
theorem InOrder.flushTransactions {o : StreamOptions} {ps : List Processed} {out : List Line}
    {d : Desk} (inOrder : InOrder o ps out d.books) (empty : d.state.batch = []) :
    let emitted := lines (d.flushTransactions o.deliveringAll.gates).state.batch
    origins (out ++ emitted) = ps.flatMap (Processed.sources o) ∧
      ∀ before s after, out ++ emitted = before ++ .summary s :: after → SumsUp o ps before s := by
  intro emitted
  obtain ⟨balance, order, transactions, -⟩ := inOrder
  have lines : emitted = (d.state.cache.parts.rows.map ChangeHeader.origin).map .change ++
      (d.transactions.flush.2.toList.map .summary ++ [].map .change) := by
    have ledger := Desk.ledger_flushTransactions o.delivering_deliveringAll d
    rw [Desk.ledger_release o.delivering_deliveringAll] at ledger
    refine (congrArg Ledger.lines ledger).trans ?_
    simp [Ledger.counted, Ledger.add, Desk.ledger, empty, DomainRecord.lines]
  refine ⟨?_, fun before s after split => ?_⟩
  · rw [lines]
    simp only [origins_append, origins_changes, origins_summaries, List.append_nil]
    exact balance
  · rcases summary_append split with ⟨rest, earlier⟩ | ⟨first, rfl, here⟩
    · exact order before s rest earlier
    · rw [lines] at here
      obtain ⟨rfl, last⟩ := split_summary here
      have handed : d.transactions = _ := transactions
      rw [handed, Transactions.flush_finished] at last
      obtain ⟨last, -⟩ := Option.filter_eq_some_iff.mp last
      obtain ⟨run, found, rfl⟩ := Option.map_eq_some_iff.mp last
      refine ⟨ps, [], (List.append_nil ps).symm, ?_, run, found, rfl⟩
      rw [origins_append, origins_changes, ← balance]
      rfl

namespace LogStream

variable {s t : LogStream} {j k : Journal} {ps : List Processed} {taken : List DomainRecord}
variable {o : StreamOptions}

theorem inOrder_between {m n : Session} {out : List Line} {qs : List Processed}
    (inOrder : InOrder o ps out m.books) (between : Session.Between o m n qs)
    (inTime : ∀ p ∈ qs, ¬ p.Overtakes o) :
    InOrder o (ps ++ qs) (out ++ lines (Processed.allRecords o.deliveringAll qs)) n.books := by
  cases between with
  | nothing same =>
    rw [same]
    simpa [lines] using inOrder
  | @entry p found empty left =>
    rw [left, Processed.allRecords_singleton]
    exact inOrder.entry found empty (inTime p (List.mem_singleton_self p))

theorem Course.inOrder (course : Course False s j ps taken t k) (nested : (s.session j).WellNested)
    (started : InOrder s.options [] [] (s.session j).books)
    (inTime : ∀ p ∈ ps, ¬ p.Overtakes s.options) :
    InOrder s.options ps (lines (Processed.allRecords s.options.deliveringAll ps))
      (t.session k).books := by
  induction course with
  | start => exact started
  | @step ps taken t k qs u course step ih =>
    have before := ih fun p member => inTime p (List.mem_append_left _ member)
    rw [Processed.allRecords_append, lines_append]
    rw [course.options] at step
    exact inOrder_between before (step.between (course.wellNested nested))
      fun p member => inTime p (List.mem_append_right _ member)
  | @fail ps taken t k qs f u course fails ih =>
    have before := ih fun p member => inTime p (List.mem_append_left _ member)
    rw [Processed.allRecords_append, lines_append]
    rw [course.options] at fails
    exact inOrder_between before (fails.between (course.wellNested nested))
      fun p member => inTime p (List.mem_append_right _ member)
  | append _ _ ih | flush _ ih => exact ih inTime
  | flushTransactions never => exact never.elim

/-- What was taken and what waits is what the gates for records leave. -/
theorem Course.waiting (course : Course False s j ps taken t k) (nested : (s.session j).WellNested) :
    taken ++ (t.session k).waiting = (s.session j).waiting ++
      (Processed.allRecords s.options.deliveringAll ps).filter s.options.delivers := by
  induction course with
  | start => simp
  | @step ps taken t k qs u course step ih =>
    rw [course.options] at step
    have waiting := (step.continues (course.wellNested nested)).waiting
    show taken ++ u.waiting = _
    rw [waiting, ← List.append_assoc, ih, (step.between (course.wellNested nested)).selected,
      Processed.allRecords_append, List.filter_append, List.append_assoc]
  | @fail ps taken t k qs f u course fails ih =>
    rw [course.options] at fails
    have waiting := (fails.stops (course.wellNested nested)).waiting
    show taken ++ u.waiting = _
    rw [waiting, ← List.append_assoc, ih, (fails.between (course.wellNested nested)).selected,
      Processed.allRecords_append, List.filter_append, List.append_assoc]
  | append _ _ ih => exact ih
  | @flush ps taken t k _ ih =>
    rw [waiting_flush, ← List.append_assoc] at ih
    exact ih
  | flushTransactions never => exact never.elim

theorem flushTransactions_selected (outside : t.included = []) :
    ((t.flushTransactions k).1.session (t.flushTransactions k).2).waiting =
      (t.session k).waiting ++ (Desk.flushTransactions t.options.deliveringAll.gates
        ⟨{ t.state with batch := [] }, k⟩).state.batch.filter t.options.delivers := by
  have alike : t.options.Decodes t.options.deliveringAll := ⟨rfl, rfl, rfl, rfl, rfl⟩
  let d : Desk := ⟨{ t.state with batch := [] }, k⟩
  have selected : Desk.Selected t.options (d.flushTransactions t.options.gates)
      (d.flushTransactions t.options.deliveringAll.gates) :=
    (Desk.congruence_selected alike t.options.delivering_deliveringAll).flushTransactions ⟨rfl, rfl⟩
  rw [waiting_of_alone outside, waiting_of_alone (show (t.flushTransactions k).1.included = [] from
    outside), flushTransactions_batch]
  exact congrArg (t.state.batch ++ ·) selected.batch

theorem Starts.books {file : LogFile} {source : Source} (starts : Starts file source o .empty s)
    (untouched : j.summaries = ∅) : (s.session j).books = (∅, .empty) := by
  obtain ⟨-, alone, -, cache, -⟩ := starts.fresh
  rw [Session.books, Session.front_alone alone]
  show (s.state.cache.parts, Transactions.mk s.state.cache.currentTransaction j.summaries) = _
  rw [cache, untouched]
  rfl

theorem Starts.inOrder {file : LogFile} {source : Source} (starts : Starts file source o .empty s)
    (untouched : j.summaries = ∅) : InOrder s.options [] [] (s.session j).books := by
  rw [starts.books untouched]
  have settled : Parts.Settled ∅ := fun _ member => absurd member List.not_mem_nil
  exact ⟨rfl, fun before s after split => by simp at split, rfl, settled.tidy, fun _ => settled⟩

/-- Changes come before the summary that counts them. Whatever is read and whatever fails, the records
that a stream has delivered once it is told to emit what it holds are those that the gates leave of
one list, which has a change of each entry that is decoded, succeeds and does not only add to another
record, in order. Where no entry overtakes a row, each summary in this list is that of the last
transaction among some first entries, all of whose changes come before it and all other changes after
it. -/
theorem course_in_order {file : LogFile} {source : Source} (starts : Starts file source o .empty s)
    (untouched : j.summaries = ∅) (course : Course False s j ps taken t k)
    (outside : t.state.phase ≠ .paused) (inTime : ∀ p ∈ ps, ¬ p.Overtakes o) :
    (∃ offered, taken ++ ((t.flushTransactions k).1.session (t.flushTransactions k).2).waiting =
        offered.filter o.delivers ∧
      (changes offered).map Change.origin = ps.flatMap (Processed.sources o) ∧
      ∀ before offset summary after, offered = before ++ ⟨offset, .transaction summary⟩ :: after →
        ∃ earlier later, ps = earlier ++ later ∧
          (changes before).map Change.origin = earlier.flatMap (Processed.sources o) ∧
          (changes after).map Change.origin = later.flatMap (Processed.sources o) ∧
          ∃ run, (runs (earlier.flatMap (Processed.calls o))).getLast? = some run ∧
            summary = Sighting.summary run) ∧
    ∀ result u l, t.read k = (result, u, l) → ∃ qs, Course False s j (ps ++ qs) taken u l := by
  obtain ⟨options, -⟩ := starts.fresh
  subst options
  have nested := starts.wellNested j
  have nestedThen := course.wellNested nested
  have alone : t.included = [] := nestedThen.included_nil outside
  have inOrder := course.inOrder nested (starts.inOrder untouched) inTime
  have waiting := course.waiting nested
  rw [starts.waiting j, List.nil_append] at waiting
  let emitted := (Desk.flushTransactions s.options.deliveringAll.gates
    ⟨{ t.state with batch := [] }, k⟩).state.batch
  have books : (t.session k).books = Desk.books ⟨{ t.state with batch := [] }, k⟩ := by
    rw [Session.books, Session.front_alone alone]
    rfl
  rw [books] at inOrder
  obtain ⟨balance, order⟩ := inOrder.flushTransactions rfl
  rw [← lines_append] at balance order
  refine ⟨⟨Processed.allRecords s.options.deliveringAll ps ++ emitted, ?_, ?_, ?_⟩,
    fun _ _ _ read => course.read nestedThen read⟩
  · rw [flushTransactions_selected alone, course.options, ← List.append_assoc, waiting,
      List.filter_append]
  · rw [← origins_lines]
    exact balance
  · intro before offset summary after split
    have linesSplit : lines (Processed.allRecords s.options.deliveringAll ps ++ emitted) =
        lines before ++ .summary summary :: lines after := by
      rw [split, lines_append]
      rfl
    obtain ⟨earlier, later, rfl, out, last⟩ := order _ _ _ linesSplit
    refine ⟨earlier, later, rfl, ?_, ?_, last⟩
    · rw [← origins_lines]
      exact out
    · rw [linesSplit, origins_append, out, List.flatMap_append] at balance
      rw [← origins_lines]
      exact List.append_cancel_left balance

/-- A row that waits for its large object and then one of another transaction, under a gate that keeps
an entry between them from being decoded. -/
theorem course_in_order_lobs :
    let words (chunks : List UInt32) : List UInt8 := chunks.flatMap bytesOfChunk
    let change (subtype xid : UInt32) : List UInt8 := Entry.encode 2 subtype
      [(0x0100, [1, xid]), (0x0101, [7, 0]), (0x0102, [1700000000, 0]), (0x0300, [1]),
        (0x0301, [1, 0x62]), (0x0302, [4, 0x424f4c43])]
    let source : Source := [.bytes (signature ++ words [1, 0] ++ change 1 0x31 ++ change 4 0x31 ++
      change 5 0x31 ++ change 1 0x32 ++ Entry.encode 0 1 [])]
    let parse (input : GateInput) : Bool := input.kind ≠ .lobErase
    let o : StreamOptions :=
      ⟨⟨none, true, .row, false⟩, Gates.accepting.replacing .parse parse, none⟩
    let s := ofSource ⟨3, 5, "a"⟩ source o .empty
    ∃ ps t k, Course False s .empty ps [] t k ∧ (∀ p ∈ ps, ¬ p.Overtakes o) ∧
      ((t.flushTransactions k).1.session (t.flushTransactions k).2).waiting.map DomainRecord.kind =
        [.insert, .commit, .insert, .commit] ∧
      ∃ offered, ((t.flushTransactions k).1.session (t.flushTransactions k).2).waiting =
          offered.filter o.delivers ∧
        (changes offered).map Change.origin = ps.flatMap (Processed.sources o) := by
  intro words change source parse o s
  have ok : (s.read .empty).1.isOk := by decide +kernel
  have untouched : Course False s .empty [] [] s .empty := .start
  obtain ⟨ps, course⟩ := untouched.read (Starts.new.wellNested .empty) (read_eq ok)
  have inTime : ∀ p ∈ ps, ¬ p.Overtakes o := by
    rintro p - ⟨lob, _, ⟨_, _, refused⟩, _⟩
    rw [lob] at refused
    have passes : true = false := refused
    cases passes
  obtain ⟨⟨offered, delivered, origins, -⟩, -⟩ :=
    course_in_order .new rfl course (by decide +kernel) inTime
  rw [List.nil_append] at delivered
  exact ⟨ps, _, _, course, inTime, by decide +kernel, offered, delivered, origins⟩

/-- A large-object write of another transaction that the parse gate refuses: the summary of the row
goes out before the row. -/
theorem overtaken_row :
    let words (chunks : List UInt32) : List UInt8 := chunks.flatMap bytesOfChunk
    let change (subtype xid : UInt32) : List UInt8 := Entry.encode 2 subtype
      [(0x0100, [1, xid]), (0x0101, [7, 0]), (0x0102, [1700000000, 0]), (0x0300, [1]),
        (0x0301, [1, 0x62]), (0x0302, [4, 0x424f4c43])]
    let source : Source := [.bytes (signature ++ words [1, 0] ++ change 1 0x31 ++ change 4 0x32 ++
      Entry.encode 0 1 [])]
    let parse (input : GateInput) : Bool := input.kind ≠ .lobWrite
    let o : StreamOptions :=
      ⟨⟨none, true, .row, false⟩, Gates.accepting.replacing .parse parse, none⟩
    let read := (ofSource ⟨3, 5, "a"⟩ source o .empty).read .empty
    let numbers (r : DomainRecord) : EntryKind × List RecordId :=
      match r.data with
      | .metadata _ => (r.kind, [])
      | .change c => (r.kind, [c.header.id])
      | .transaction s => (r.kind, [s.startRecordId, s.endRecordId])
    read.1 = .ok () ∧ (read.2.1.flushTransactions read.2.2).1.flush.2.map numbers =
      [(.commit, [⟨3, 1⟩, ⟨3, 1⟩]), (.insert, [⟨3, 1⟩]), (.commit, [⟨3, 2⟩, ⟨3, 2⟩])] := by
  decide +kernel

end LogStream

end ChangeCapture
