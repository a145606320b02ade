import ChangeCapture.Proofs.Phases
import ChangeCapture.Proofs.Resuming

/-! The order in which a stream emits. Rows that were held, summaries of transactions that ended
earlier and records of included files go out late, and still the offsets of summaries never go back,
nor do those of all other records; and where the latter stand still, all of that was read for one
include entry. -/
namespace ChangeCapture

open DomainRecord

/-- Entries in the order of their places: those of the file itself go forward, all other ones are
reported at include entries of the file itself. -/
structure Rooted (ps : List Processed) : Prop where
  forward : ps.Pairwise fun p q => q.desk.state.reportAt = none → p.place < q.place
  roots : ∀ p ∈ ps, ∀ place, p.desk.state.reportAt = some place →
    ∃ i ∈ ps, i.entry.kind = .includeFile ∧ i.desk.state.reportAt = none ∧ i.place = place

/-- One offset after another, or both that of one include entry, where nothing is reported but what is
in the file that it includes. -/
def Succeeds (ps : List Processed) (a b : StreamOffset) : Prop :=
  a < b ∨ a = b ∧ ∃ i ∈ ps, i.entry.kind = .includeFile ∧ i.desk.state.reportAt = none ∧
    i.place = b ∧ ∀ p ∈ ps, p.place = b → p = i ∨ p.desk.state.reportAt = some b

theorem Succeeds.not_lt {ps : List Processed} {a b : StreamOffset} (succeeds : Succeeds ps a b) :
    ¬ b < a := by
  rcases succeeds with less | ⟨rfl, -⟩
  · exact weakOrder_streamOffset.asymm less
  · exact StreamOffset.lt_irrefl a

namespace Rooted

variable {ps qs : List Processed} {place : StreamOffset}

theorem nil : Rooted [] := ⟨.nil, by simp⟩

theorem snoc {p : Processed} (rooted : Rooted ps) (outside : p.desk.state.reportAt = none)
    (behind : ∀ q ∈ ps, q.place < p.place) : Rooted (ps ++ [p]) := by
  constructor
  case forward =>
    rw [List.pairwise_append]
    refine ⟨rooted.forward, List.pairwise_singleton _ _, fun q earlier r last _ => ?_⟩
    rw [List.mem_singleton.mp last]
    exact behind q earlier
  case roots =>
    intro q member place inside
    rcases List.mem_append.mp member with earlier | last
    · obtain ⟨i, among, root⟩ := rooted.roots q earlier place inside
      exact ⟨i, List.mem_append_left _ among, root⟩
    · rw [List.mem_singleton.mp last, outside] at inside
      cases inside

theorem root (rooted : Rooted ps) (member : place ∈ includePlaces ps) :
    ∃ i ∈ ps, i.entry.kind = .includeFile ∧ i.desk.state.reportAt = none ∧ i.place = place := by
  obtain ⟨r, among, rfl⟩ := List.mem_map.mp member
  obtain ⟨among, includes⟩ := List.mem_filter.mp among
  cases outside : r.desk.state.reportAt with
  | none => exact ⟨r, among, by simpa using includes, outside, rfl⟩
  | some place =>
    rw [Processed.place_of_inside outside]
    exact rooted.roots r among place outside

theorem append (rooted : Rooted ps) (member : place ∈ includePlaces ps)
    (inside : ∀ p ∈ qs, p.desk.state.reportAt = some place) : Rooted (ps ++ qs) := by
  constructor
  case forward =>
    rw [List.pairwise_append]
    refine ⟨rooted.forward, List.pairwise_of_forall_mem_list fun p _ q later outside => ?_,
      fun p _ q later outside => ?_⟩ <;>
    · rw [inside q later] at outside
      cases outside
  case roots =>
    intro p among place' inside'
    have found : ∃ i ∈ ps, i.entry.kind = .includeFile ∧ i.desk.state.reportAt = none ∧
        i.place = place' := by
      rcases List.mem_append.mp among with earlier | later
      · exact rooted.roots p earlier place' inside'
      · obtain rfl := Option.some.inj ((inside p later).symm.trans inside')
        exact rooted.root member
    obtain ⟨i, earlier, root⟩ := found
    exact ⟨i, List.mem_append_left _ earlier, root⟩

/-- At the place of an entry of the file itself, no other one is reported. -/
theorem alone {i p : Processed} (rooted : Rooted ps) (here : i ∈ ps) (there : p ∈ ps)
    (outside : i.desk.state.reportAt = none) (same : p.place = i.place) :
    p = i ∨ p.desk.state.reportAt = some i.place := by
  cases other : p.desk.state.reportAt with
  | some place => exact .inr (by rw [← same, Processed.place_of_inside other])
  | none =>
    have apart {p q : Processed} (forward : q.desk.state.reportAt = none → p.place < q.place)
        (outside : q.desk.state.reportAt = none) : p.place ≠ q.place := fun same =>
      StreamOffset.lt_irrefl q.place (same ▸ forward outside)
    have unique := List.Pairwise.forall_of_forall_of_flip
      (R := fun p q : Processed => p.desk.state.reportAt = none → q.desk.state.reportAt = none →
        p.place = q.place → p = q)
      (fun _ _ _ _ _ => rfl)
      (rooted.forward.imp fun forward _ outside same => absurd same (apart forward outside))
      (rooted.forward.imp fun forward outside _ same => absurd same.symm (apart forward outside))
    exact .inl (unique there here other outside same)

theorem succeeds {a b : StreamOffset} (rooted : Rooted ps)
    (onward : Onward (includePlaces ps) a b) : Succeeds ps a b := by
  refine onward.imp_right fun ⟨same, member⟩ => ⟨same, ?_⟩
  obtain ⟨i, among, includes, outside, rfl⟩ := rooted.root member
  exact ⟨i, among, includes, outside, rfl, fun p there => rooted.alone among there outside⟩

end Rooted

namespace Session

variable {o : StreamOptions} {depth : Nat} {s t : Session} {ps qs : List Processed}

theorem Placed.rooted_entry {e : Entry} {reader : ChunkReader} (placed : Placed ps s)
    (found : ChunkReader.next s.reader = (.ok e, reader)) (rooted : Rooted ps) :
    Rooted (ps ++ [s.processing e]) := by
  refine rooted.snoc placed.outside fun q earlier => ?_
  rw [placed.place_processing found]
  exact placed.behind q earlier

theorem Placed.rooted_included {i : Included} {deeper : List Included} (placed : Placed ps s)
    (open_ : s.included = i :: deeper) (rooted : Rooted ps)
    (stay : ∀ {place}, (s.inner i deeper).Pinned place →
      (∀ p ∈ qs, p.desk.state.reportAt = some place) ∧ t.Pinned place) : Rooted (ps ++ qs) := by
  obtain ⟨place, member, pinned, -⟩ := placed.inside (by simp [open_])
  rw [open_] at pinned
  exact rooted.append member (stay (List.forall_mem_cons.mp pinned)).1

theorem Placed.rooted_step (placed : Placed ps s) (step : Step o depth s qs t)
    (rooted : Rooted ps) : Rooted (ps ++ qs) := by
  cases step with
  | entry _ found => exact placed.rooted_entry found rooted
  | included open_ _ step => exact placed.rooted_included open_ rooted step.pinned
  | header | footer | close | handOn | resume => rwa [List.append_nil]

theorem Placed.rooted_fails {f : Failure} (placed : Placed ps s) (fails : Fails o depth s qs f t)
    (rooted : Rooted ps) : Rooted (ps ++ qs) := by
  cases fails with
  | entry _ found => exact placed.rooted_entry found rooted
  | included open_ _ _ fails => exact placed.rooted_included open_ rooted fails.pinned
  | header | next | tooDeep => rwa [List.append_nil]

end Session

namespace Transactions

variable {t : Transactions}

theorem waits_none (none_ : t.current = none) : t.waits = [] := by
  rw [waits, none_]
  rfl

theorem alone_flush (alone : t.Alone) : t.flush.1.Alone := by
  unfold flush
  split
  next xid current =>
    intro x _
    show (t.summaries.erase xid).get? x = none
    rw [Registry.get?_erase]
    split
    · rfl
    next other => exact alone x (by simp [current, Ne.symm other])
  · exact alone

end Transactions

theorem Desk.transactions_flushTransactions (gates : Gates) (d : Desk) :
    (d.flushTransactions gates).transactions = d.transactions.flush.1 := by
  have emitted (d : Desk) (r : DomainRecord) : (d.emit gates r).transactions = d.transactions := by
    show (d.emit gates r).core.transactions = d.core.transactions
    rw [core_emit]
  have released : (d.release gates).transactions = d.transactions :=
    release_keeps (p := transactions) gates emitted d
  rw [flushTransactions, released]
  dsimp only
  unfold withTransactions
  cases d.transactions.flush.2 with
  | none => rfl
  | some summary => exact emitted _ _

namespace LogStream

variable {s t : LogStream} {j k : Journal} {flushing : Prop} {ps : List Processed}
variable {taken : List DomainRecord}

theorem Course.rooted (course : Course flushing s j ps taken t k)
    (placed : Session.Placed [] (s.session j)) (nested : (s.session j).WellNested) :
    Rooted ps := by
  induction course with
  | start => exact .nil
  | step course step ih => exact (course.placed placed nested).rooted_step step ih
  | fail course fails ih => exact (course.placed placed nested).rooted_fails fails ih
  | append _ _ ih | flush _ ih | flushTransactions _ _ ih => exact ih

/-- All along a run that is not told to emit what it holds, as along a path. -/
theorem Course.trails (course : Course False s j ps taken t k) (nested : (s.session j).WellNested)
    (sound : (s.session j).pending.Sound s.options) :
    Session.Trails s.options (s.session j) ps (t.session k) := by
  induction course with
  | start => exact .refl sound
  | step course step ih =>
    rw [course.options] at step
    exact ih.trans ((step.between (course.wellNested nested)).trails ih.sound)
  | fail course fails ih =>
    rw [course.options] at fails
    exact ih.trans ((fails.between (course.wellNested nested)).trails ih.sound)
  | append _ _ ih | flush _ ih => exact ⟨ih.sound, ih.trail⟩
  | flushTransactions never => exact never.elim

theorem pending_flushTransactions (outside : t.included = [])
    (sound : (t.session k).pending.Sound t.options) :
    let after := (t.flushTransactions k).1.session (t.flushTransactions k).2
    after.pending.Sound t.options ∧ ∀ summaries, after.pending.trail summaries = [] := by
  intro after
  have alone : after.included = [] := outside
  have parts : after.pending.parts.waits = [] := by
    rw [Session.pending, Session.books, Session.front_alone alone]
    exact Desk.waits_flushTransactions t.options ⟨t.state, k⟩
  have transactions : after.pending.transactions = (t.session k).pending.transactions.flush.1 := by
    rw [Session.pending, Session.books, Session.front_alone alone, Session.pending, Session.books,
      Session.front_alone (show (t.session k).included = [] from outside)]
    exact Desk.transactions_flushTransactions t.options.gates ⟨t.state, k⟩
  refine ⟨⟨fun _ => parts, ?_⟩, fun summaries => ?_⟩
  · rw [transactions]
    exact Transactions.alone_flush sound.alone
  · cases summaries with
    | false => exact parts
    | true =>
      show after.pending.transactions.waits = []
      rw [transactions]
      exact Transactions.waits_none (Transactions.flush_current _)

end LogStream

namespace Client

open LogStream

variable {s : LogStream} {j : Journal} {c : Client} {o : StreamOptions} {ps qs : List Processed}
variable {offered : List DomainRecord}

/-- What a client has got after some entries, and what is still to come, is reported where these are,
in their order. -/
structure Reported (o : StreamOptions) (ps : List Processed) (offered : List DomainRecord)
    (c : Client) : Prop where
  waiting : c.taken ++ c.session.waiting = offered.filter o.delivers
  sound : c.session.pending.Sound o
  trail : ∀ summaries, (offsets summaries offered ++ c.session.pending.trail summaries).Sublist
    (ps.map Processed.place)

theorem Reported.start {file : LogFile} {source : Source} (starts : Starts file source o .empty s)
    (untouched : j.summaries = ∅) : Reported o [] [] (ofStream s j) := by
  have nothing : (ofStream s j).session.pending = ⟨[], ∅, .empty⟩ := starts.pending untouched
  constructor
  case waiting => exact starts.waiting j
  case sound =>
    rw [nothing]
    exact ⟨fun _ => rfl, fun _ _ => rfl⟩
  case trail =>
    intro summaries
    rw [nothing]
    cases summaries <;> exact .refl _

/-- Reading on, and taking records. -/
theorem Reported.further {d : Client} {more : List DomainRecord} (reported : Reported o ps offered c)
    (options : c.stream.options = o) (nested : c.session.WellNested)
    (course : Course False c.stream c.journal qs more d.stream d.journal)
    (taken : d.taken = c.taken ++ more) :
    Reported o (ps ++ qs) (offered ++ Processed.allRecords o.deliveringAll qs) d := by
  subst options
  have trails := course.trails nested reported.sound
  constructor
  case waiting =>
    have waiting : more ++ d.session.waiting = c.session.waiting ++ _ := course.waiting nested
    rw [taken, List.append_assoc, waiting, ← List.append_assoc, reported.waiting,
      List.filter_append]
  case sound => exact trails.sound
  case trail =>
    intro summaries
    have later := (trails.trail summaries).append_left (offsets summaries offered)
    have earlier := (reported.trail summaries).append_right (qs.map Processed.place)
    rw [List.append_assoc] at earlier
    rw [offsets_append, List.append_assoc, List.map_append]
    exact later.trans earlier

theorem Reported.flushTransactions (reported : Reported o ps offered c)
    (options : c.stream.options = o) (outside : c.stream.included = []) :
    ∃ more, Reported o ps (offered ++ more) (c.ask .flushTransactions) := by
  subst options
  obtain ⟨waiting, sound, trail⟩ := reported
  obtain ⟨soundThen, nothing⟩ := pending_flushTransactions outside sound
  let d : Desk := ⟨{ c.stream.state with batch := [] }, c.journal⟩
  let more := (d.flushTransactions c.stream.options.deliveringAll.gates).state.batch
  refine ⟨more, ?_, soundThen, fun summaries => ?_⟩
  · have waitingThen : (c.ask .flushTransactions).session.waiting =
        c.session.waiting ++ more.filter c.stream.options.delivers :=
      flushTransactions_selected outside
    show c.taken ++ (c.ask .flushTransactions).session.waiting = _
    rw [waitingThen, ← List.append_assoc, waiting, List.filter_append]
  · have books : d.books = c.session.books := by
      rw [Session.books, Session.front_alone (show c.session.included = [] from outside)]
      rfl
    have emitted := Desk.offsets_flushTransactions c.stream.options.delivering_deliveringAll d
      summaries
    rw [Session.pending_of_books books rfl] at emitted
    rw [show (c.ask .flushTransactions).session.pending.trail summaries = [] from
      nothing summaries, List.append_nil, offsets_append]
    exact (emitted.append_left _).trans (trail summaries)

theorem reported_askAll {file : LogFile} {source : Source}
    (starts : Starts file source o .empty s) (untouched : j.summaries = ∅)
    (requests : List Request)
    (outside : ∀ n, requests[n]? = some .flushTransactions →
      ((ofStream s j).askAll (requests.take n)).stream.included = []) :
    let c := (ofStream s j).askAll requests
    ∃ ps offered, Course True s j ps c.taken c.stream c.journal ∧ Reported o ps offered c := by
  have nested := starts.wellNested j
  induction requests using List.reverseRecOn with
  | nil => exact ⟨[], [], .start, .start starts untouched⟩
  | append_singleton requests r ih =>
    obtain ⟨outside, last⟩ := (forall_snoc (p := fun earlier =>
      ((ofStream s j).askAll earlier).stream.included = [])).mp outside
    obtain ⟨ps, offered, course, reported⟩ := ih outside
    have options := course.options.trans starts.fresh.1
    rw [askAll_snoc]
    by_cases flushes : r = .flushTransactions
    · subst flushes
      obtain ⟨more, reported⟩ := reported.flushTransactions options (last rfl)
      exact ⟨ps, _, course.flushTransactions trivial, reported⟩
    · have nestedThen := course.wellNested nested
      obtain ⟨qs, more, further, taken⟩ := course_ask_alone _ nestedThen flushes
      refine ⟨ps ++ qs, _, ?_, reported.further options nestedThen further taken⟩
      have whole := course.trans further False.elim
      rwa [← taken] at whole

/-- Whatever is asked of a stream that starts from nothing, as long as it is told to emit what it holds
only while no included file is open: what it emits is reported at the entries that it processes and in
their order, the summaries among themselves and all other records among themselves, of which those at
one offset belong to one include entry. -/
theorem asked_in_succession {file : LogFile} {source : Source}
    (starts : Starts file source o .empty s) (untouched : j.summaries = ∅)
    (requests : List Request)
    (outside : ∀ n, requests[n]? = some .flushTransactions →
      ((ofStream s j).askAll (requests.take n)).stream.included = []) :
    let c := (ofStream s j).askAll requests
    ∃ ps, Course True s j ps c.taken c.stream c.journal ∧
      (∀ summaries, (offsets summaries c.emitted).Sublist (ps.map Processed.place)) ∧
      (offsets false c.emitted).Pairwise (Succeeds ps) ∧
      (offsets true c.emitted).Pairwise fun a b => ¬ b < a := by
  intro c
  obtain ⟨ps, offered, course, reported⟩ := reported_askAll starts untouched requests outside
  have nested := starts.wellNested j
  have placed := course.placed (starts.placed j) nested
  have rooted := course.rooted (starts.placed j) nested
  have emitted : c.emitted.Sublist offered := by
    have waits : c.emitted.Sublist (c.taken ++ c.session.waiting) :=
      (List.sublist_append_left ..).append_left _
    exact (reported.waiting ▸ waits).trans List.filter_sublist
  have among (summaries : Bool) : (offsets summaries c.emitted).Sublist (ps.map Processed.place) :=
    ((offsets_sublist emitted summaries).trans (List.sublist_append_left ..)).trans
      (reported.trail summaries)
  have ordered (summaries : Bool) : (offsets summaries c.emitted).Pairwise (Succeeds ps) :=
    (placed.ordered.imp rooted.succeeds).sublist (among summaries)
  exact ⟨ps, course, among, ordered false, (ordered true).imp Succeeds.not_lt⟩

/-- A row that is held before an included file of two records, and one of another transaction after
it, which is held until the footer. -/
theorem asked_in_succession_included :
    let words (chunks : List UInt32) : List UInt8 := chunks.flatMap bytesOfChunk
    let inner : Source := [.bytes (signature ++ words [1, 0, 3, 2, 8, 3, 2, 8])]
    let insert (xid : UInt32) : List UInt8 := Entry.encode 2 1
      [(0x0100, [1, xid]), (0x0101, [7, 0]), (0x0102, [1700000000, 0]), (0x0300, [1]),
        (0x0301, [1, 0x62]), (0x0302, [4, 0x424f4c43])]
    let source : Source := [.bytes (signature ++ words [1, 0] ++ insert 0x31 ++
      words [7, 2, 9, 4, 0x0501, 1, 0x62] ++ insert 0x32 ++ Entry.encode 0 1 [])]
    let o : StreamOptions :=
      ⟨⟨some 2, true, .row, false⟩, .accepting, some (.named (.ofList [("b", inner)]))⟩
    let s := ofSource ⟨3, 5, "a"⟩ source o .empty
    let requests : List Request := [.read, .flush, .read, .flush, .flushTransactions, .flush]
    let c := (ofStream s .empty).askAll requests
    c.emitted.map isSummary = [false, false, false, true, false, true] ∧
      ∃ ps, (offsets false c.emitted).Pairwise (Succeeds ps) ∧
        (offsets true c.emitted).Pairwise fun a b => ¬ b < a := by
  intro words inner insert source o s requests c
  have outside : ∀ n < requests.length, requests[n]? = some .flushTransactions →
      ((ofStream s .empty).askAll (requests.take n)).stream.included = [] := by decide +kernel
  obtain ⟨ps, -, -, others, summaries⟩ := asked_in_succession .new rfl requests fun n found =>
    outside n (List.getElem?_eq_some_iff.mp found).1 found
  exact ⟨by decide +kernel, ps, others, summaries⟩

end Client

end ChangeCapture
