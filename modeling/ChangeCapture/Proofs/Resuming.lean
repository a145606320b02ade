import ChangeCapture.Proofs.Iteration
import ChangeCapture.Proofs.Places

/-! Streams that go on where an earlier reading of the same input was given up. The resume filter
knows one offset for each table, and one for all records that belong to none. So a resumed stream
repeats nothing, but it may leave out records of an included file that was given up midway, and
records that belong to no table. -/
namespace ChangeCapture

namespace StreamOffset

theorem lt_irrefl (a : StreamOffset) : ¬ a < a := weakOrder_streamOffset.irrefl a

theorem later_lt {a b c : StreamOffset} : a.later b < c ↔ a < c ∧ b < c := by
  unfold later
  split
  next less => exact ⟨fun h => ⟨lt_trans less h, h⟩, And.right⟩
  next more =>
    exact ⟨fun h => ⟨h, (weakOrder_streamOffset.split b h).resolve_left more⟩, And.left⟩

end StreamOffset

namespace DomainRecord

/-- Whether a record lies beyond another one, unless they are of different tables. -/
def clears (r d : DomainRecord) : Bool := d.schema? = r.schema? → d.offset < r.offset

theorem clears_eq_false {r d : DomainRecord} (lost : r.clears d = false) :
    d.schema? = r.schema? ∧ ¬ d.offset < r.offset := by
  simpa [clears] using lost

/-- No record lies beyond itself, so none of them passes twice. -/
theorem filter_clears_self (delivered : List DomainRecord) :
    delivered.filter (fun r => delivered.all r.clears) = [] := by
  refine List.filter_eq_nil_iff.mpr fun d member all => ?_
  have beyond := List.all_eq_true.mp all d member
  simp [clears, StreamOffset.lt_irrefl] at beyond

theorem schema?_of_isSummary {r : DomainRecord} (summary : r.isSummary) : r.schema? = none := by
  unfold isSummary at summary
  unfold schema?
  split at summary
  next found => rw [found]
  · cases summary

end DomainRecord

namespace ResumeFilter

/-- What a filter knows once it was told of some deliveries. -/
def after (delivered : List DomainRecord) : ResumeFilter :=
  delivered.foldl (fun f d => f.deliver d.schema? d.offset) .empty

theorem accepts_deliver (f : ResumeFilter) (schema : Option String) (offset : StreamOffset)
    (input : GateInput) : (f.deliver schema offset).accepts input =
      (f.accepts input && decide (schema = input.schema → offset < input.offset)) := by
  by_cases same : schema = input.schema
  · subst same
    have first : StreamOffset.zero.later offset = offset := by
      rcases StreamOffset.zero_or_above offset with rfl | above
      · rfl
      · exact if_pos above
    have known : (f.deliver input.schema offset).last? input.schema =
        some (((f.last? input.schema).getD .zero).later offset) := Registry.get?_insert_self ..
    rw [accepts, accepts, known]
    cases f.last? input.schema <;> simp [first, StreamOffset.later_lt]
  · have other : (f.deliver schema offset).last? input.schema = f.last? input.schema :=
      (Registry.get?_insert ..).trans (if_neg (Ne.symm same))
    rw [accepts, accepts, other]
    simp [same]

/-- A record passes if it lies beyond all delivered records of its table. -/
theorem accepts_after (delivered : List DomainRecord) (r : DomainRecord) :
    (after delivered).accepts (.ofRecord r) = delivered.all r.clears := by
  have from_ (f : ResumeFilter) :
      (delivered.foldl (fun f d => f.deliver d.schema? d.offset) f).accepts (.ofRecord r) =
        (f.accepts (.ofRecord r) && delivered.all r.clears) := by
    induction delivered generalizing f with
    | nil => simp
    | cons d delivered ih =>
      rw [List.foldl_cons, ih, accepts_deliver, List.all_cons, Bool.and_assoc]
      rfl
  exact from_ .empty

end ResumeFilter

/-- The same options, under which only what lies beyond some delivered records passes. -/
def StreamOptions.resuming (o : StreamOptions) (delivered : List DomainRecord) : StreamOptions :=
  o.delivering o.config.batchSize (o.gates .persist)
    (fun input => o.gates .filter input && (ResumeFilter.after delivered).accepts input)

theorem StreamOptions.delivering_self (o : StreamOptions) :
    o.delivering o.config.batchSize (o.gates .persist) (o.gates .filter) = o := by
  have gates : (o.gates.replacing .persist (o.gates .persist)).replacing .filter (o.gates .filter) =
      o.gates := by
    funext gate input
    cases gate <;> rfl
  rw [delivering, gates]

theorem Records.Yields.unique {r u u' : Records} {items items' : List (Except Failure DomainRecord)}
    (yields : Yields r items u) (other : Yields r items' u') : items = items' := by
  induction yields generalizing items' with
  | nil ends _ =>
    cases other with
    | nil => rfl
    | cons next _ =>
      rw [ends] at next
      cases next
  | cons next _ ih =>
    cases other with
    | nil ends _ =>
      rw [next] at ends
      cases ends
    | cons next' rest =>
      rw [next] at next'
      cases next'
      rw [ih rest]

namespace LogStream

variable {s : LogStream} {j : Journal} {o : StreamOptions} {file : LogFile} {source : Source}

/-- All records of a stream that can be decoded: also those that are held until the end. -/
def everything (s : LogStream) (j : Journal) : List DomainRecord :=
  s.decoded j ++ (s.rest j).lastRecords s.options

theorem yields_everything (nested : (s.session j).WellNested) (clean : (s.rest j).isClean) :
    ∃ u, Records.Yields (.ofStream s j) ((s.everything j).map .ok) u := by
  obtain ⟨t, k, drains⟩ := drains_of_clean nested clean
  obtain ⟨u, yields⟩ := drains.yields nested
  rw [drains.lastRecords nested] at yields
  exact ⟨u, yields⟩

theorem everything_of_yields {records : List DomainRecord} {u : Records}
    (nested : (s.session j).WellNested)
    (yields : Records.Yields (.ofStream s j) (records.map .ok) u) :
    (s.rest j).isClean ∧ records = s.everything j := by
  rcases drains_or_breaks nested with ⟨out, t, k, drains⟩ | ⟨out, f, t, k, breaks⟩
  · have clean := (drains.rest nested).1
    obtain ⟨u', whole⟩ := yields_everything nested clean
    have same := yields.unique whole
    exact ⟨clean, List.map_injective_iff.mpr (fun _ _ => Except.ok.inj) same⟩
  · obtain ⟨u', failing, -⟩ := breaks.yields nested
    have same := yields.unique failing
    have told : Except.error f ∈ records.map (Except.ok (ε := Failure)) := by simp [same]
    obtain ⟨_, _, impossible⟩ := List.mem_map.mp told
    cases impossible

theorem rest_path (nested : (s.session j).WellNested) (clean : (s.rest j).isClean) :
    ∃ m, Session.Path s.options (depth s.options) (s.session j) (s.rest j).processed m ∧
      (Desk.mk (s.rest j).session.state (s.rest j).session.journal).written = m.pending := by
  let limit := (s.decoded j).length + 1
  have filled := Session.filled_fill (o := s.options) (depth s.options) limit nested
  have ended (m : Session) (alone : m.included = []) :
      (Desk.mk m.bare.state m.bare.journal).written = m.pending := by
    refine Session.pending_of_books ?_ rfl
    rw [Session.books, Session.front_alone alone]
    rfl
  generalize Session.fill s.options (depth s.options) limit (s.session j) = x at filled
  obtain ⟨result, t⟩ := x
  dsimp only at filled
  cases filled with
  | @ok ps _ path full =>
    obtain ⟨decoded, waiting⟩ := path.continues nested
    have rest : s.rest j = (Session.decode s.options (depth s.options) t.bare).after ps := decoded
    have short : t.state.batch.length < limit := by
      have total : s.decoded j = t.waiting ++
          (Session.decode s.options (depth s.options) t.bare).records s.options := by
        rw [LogStream.decoded, rest, waiting, Outcome.records_after, List.append_assoc]
      have length := congrArg List.length total
      simp only [Session.waiting, List.length_append] at length
      omega
    have done := full.resolve_left (Nat.not_le_of_lt short)
    have alone := (path.wellNested nested).included_nil (by simp [done])
    rw [rest, Session.decode_done (s := t.bare) done]
    exact ⟨t, by simpa [Outcome.after] using path, ended t alone⟩
  | @error ps qs m _ f path fails =>
    obtain ⟨decoded, -⟩ := path.continues nested
    have stopped := (fails.stops (path.wellNested nested)).decode
    have rest : s.rest j = (⟨qs, .error f, t.bare⟩ : Outcome).after ps :=
      decoded.trans (congrArg (Outcome.after · ps) stopped)
    have closed : f = .streamClosed := by
      rw [rest] at clean
      simpa [Outcome.isClean, Outcome.after, Failure.isFatal] using clean
    subst closed
    obtain ⟨rfl, reads, reader, -, rfl⟩ := fails.of_streamClosed
    have alone : m.included = [] := (path.wellNested nested).alone_of_reads reads
    rw [rest]
    exact ⟨m, by simpa [Outcome.after] using path, ended m alone⟩

/-- Streams of one file under different gates can be decoded together, and each has what its gates
leave of one list of records. -/
theorem Starts.everything {cache : Cache} {batchSize : Option Nat}
    {persist filter : GateInput → Bool}
    (starts : Starts file source (o.delivering batchSize persist filter) cache s) (j : Journal) :
    let all := ofSource file source o.deliveringAll cache
    (s.rest j).isClean = (all.rest j).isClean ∧ ((s.rest j).isClean →
      s.everything j =
        (all.everything j).filter (fun r => persist (.ofRecord r) && filter (.ofRecord r))) := by
  intro all
  obtain ⟨result, records, core⟩ := starts.selects j
  have options := starts.fresh.1
  have same : (s.rest j).isClean = (all.rest j).isClean := by
    rw [Outcome.isClean, result, ← Outcome.isClean]
  refine ⟨same, fun clean => ?_⟩
  have startsAll : Starts file source o.deliveringAll cache all := .new
  obtain ⟨_, _, left⟩ := rest_path (starts.wellNested j) clean
  obtain ⟨_, _, leftAll⟩ := rest_path (startsAll.wellNested j) (same ▸ clean)
  have selected : Desk.Selected (o.delivering batchSize persist filter)
      ⟨(s.rest j).session.state, (s.rest j).session.journal⟩
      ⟨(all.rest j).session.state, (all.rest j).session.journal⟩ := by
    refine ⟨congrArg (fun c : Session => Desk.mk c.state c.journal) core, ?_⟩
    rw [show (s.rest j).session.state.batch = [] from congrArg Written.batch left,
      show (all.rest j).session.state.batch = [] from congrArg Written.batch leftAll]
    rfl
  have last : (s.rest j).lastRecords s.options =
      ((all.rest j).lastRecords o.deliveringAll).filter
        (fun r => persist (.ofRecord r) && filter (.ofRecord r)) := by
    rw [options]
    exact ((Desk.congruence_selected (o.decodes_delivering ..)
      o.delivering_deliveringAll).flushTransactions selected).batch
  rw [LogStream.everything, LogStream.everything, decoded, decoded, starts.waiting j,
    startsAll.waiting j, last, options, records, List.nil_append, List.nil_append,
    List.filter_append, StreamOptions.delivers_delivering]
  rfl

/-- What a stream delivers is a selection of what its entries lead to where all is delivered. -/
theorem everything_selected (nested : (s.session j).WellNested) (clean : (s.rest j).isClean)
    (nothing : (s.session j).waiting = []) : s.everything j =
      (Processed.allRecords s.options.deliveringAll (s.rest j).processed ++
        (s.rest j).lastRecords s.options.deliveringAll).filter s.options.delivers := by
  obtain ⟨m, path, left⟩ := rest_path nested clean
  have alike : s.options.Decodes s.options.deliveringAll := ⟨rfl, rfl, rfl, rfl, rfl⟩
  let d : Desk := ⟨(s.rest j).session.state, (s.rest j).session.journal⟩
  have same : d.Selected s.options d := ⟨rfl, by
    rw [show d.state.batch = [] from congrArg Written.batch left]
    rfl⟩
  have last : (s.rest j).lastRecords s.options = ((s.rest j).lastRecords
      s.options.deliveringAll).filter s.options.delivers :=
    ((Desk.congruence_selected alike
      s.options.delivering_deliveringAll).flushTransactions same).batch
  rw [everything, decoded, nothing, List.nil_append, last, List.filter_append, Outcome.records,
    path.selected nested]

/-- A stream that starts from nothing delivers its summaries in the order of the entries that they
are reported at, and all other records too. -/
theorem Starts.ordered (starts : Starts file source o .empty s) (clean : (s.rest .empty).isClean)
    (summaries : Bool) : (DomainRecord.offsets summaries (s.everything .empty)).Pairwise
      (Onward (includePlaces (s.rest .empty).processed)) := by
  have nested := starts.wellNested .empty
  obtain ⟨m, path, left⟩ := rest_path nested clean
  have nothing := starts.pending (j := .empty) rfl
  have trails := path.trails nested (nothing ▸ ⟨fun _ => rfl, fun _ _ => rfl⟩)
  have placed := path.placed (starts.placed .empty) nested
  have flushed := Desk.offsets_flushTransactions s.options.delivering_deliveringAll
    ⟨(s.rest .empty).session.state, (s.rest .empty).session.journal⟩ summaries
  rw [left] at flushed
  have all := trails.trail summaries
  rw [nothing, show Written.trail ⟨[], ∅, .empty⟩ summaries = [] by cases summaries <;> rfl,
    List.nil_append] at all
  refine List.Pairwise.sublist ?_ placed.ordered
  rw [everything_selected nested clean (starts.waiting .empty)]
  refine (DomainRecord.offsets_sublist List.filter_sublist summaries).trans ?_
  rw [DomainRecord.offsets_append]
  exact (flushed.append_left _).trans all

/-- A resumed stream can be decoded when the stream it resumes can, and has what lies beyond the
delivered records. -/
theorem Starts.everything_resuming {delivered : List DomainRecord} {s' : LogStream}
    (starts : Starts file source o .empty s)
    (resumed : Starts file source (o.resuming delivered) .empty s')
    (clean : (s.rest .empty).isClean) :
    (s'.rest .empty).isClean ∧ s'.everything .empty =
      (s.everything .empty).filter fun r => delivered.all r.clears := by
  have startsAlike : Starts file source
      (o.delivering o.config.batchSize (o.gates .persist) (o.gates .filter)) .empty s :=
    o.delivering_self.symm ▸ starts
  obtain ⟨same, selected⟩ := startsAlike.everything .empty
  obtain ⟨same', selected'⟩ := Starts.everything (o := o) resumed .empty
  have clean' : (s'.rest .empty).isClean := by rw [same', ← same]; exact clean
  refine ⟨clean', ?_⟩
  rw [selected' clean', selected clean, List.filter_filter]
  refine List.filter_congr fun r _ => ?_
  rw [ResumeFilter.accepts_after]
  ac_rfl

/-- Two records of one table, of which the later does not lie beyond the earlier, are reported at
one include entry, unless they are a summary and a record of some other sort. -/
theorem Starts.in_the_way {earlier later : List DomainRecord} {d r : DomainRecord}
    (starts : Starts file source o .empty s) (clean : (s.rest .empty).isClean)
    (whole : earlier ++ later = s.everything .empty) (before : d ∈ earlier) (after : r ∈ later)
    (lost : r.clears d = false) :
    (d.offset = r.offset ∧ r.offset ∈ includePlaces (s.rest .empty).processed) ∨
    (r.schema? = none ∧ d.isSummary ≠ r.isSummary) := by
  obtain ⟨table, behind⟩ := DomainRecord.clears_eq_false lost
  by_cases sort : d.isSummary = r.isSummary
  · have ordered := starts.ordered clean r.isSummary
    rw [← whole, DomainRecord.offsets_append, List.pairwise_append] at ordered
    have onward := ordered.2.2 d.offset
      (List.mem_map_of_mem (List.mem_filter.mpr ⟨before, by simpa using sort⟩)) r.offset
      (List.mem_map_of_mem (List.mem_filter.mpr ⟨after, by simp⟩))
    exact .inl (onward.resolve_left behind)
  · refine .inr ⟨?_, sort⟩
    cases summary : r.isSummary with
    | true => exact DomainRecord.schema?_of_isSummary summary
    | false =>
      rw [← table]
      exact DomainRecord.schema?_of_isSummary (by simpa [summary] using sort)

/-- A resumed stream hands out, in order, those of the remaining records that lie beyond all
delivered records of their tables, and nothing else. Where a delivered record is in the way of
another one, both are reported at one include entry, or both belong to no table and one of them is a
summary and the other is not. -/
theorem yields_resumed {records : List DomainRecord} {u : Records}
    (starts : Starts file source o .empty s)
    (yields : Records.Yields (.ofStream s .empty) (records.map .ok) u) (count : Nat) :
    let delivered := records.take count
    let left := records.drop count
    (∀ s', Starts file source (o.resuming delivered) .empty s' → ∃ u',
      Records.Yields (.ofStream s' .empty)
        ((left.filter fun r => delivered.all r.clears).map .ok) u') ∧
    ∀ d ∈ delivered, ∀ r ∈ left, r.clears d = false →
      (d.offset = r.offset ∧ r.offset ∈ includePlaces (s.rest .empty).processed) ∨
      (r.schema? = none ∧ d.isSummary ≠ r.isSummary) := by
  intro delivered left
  have split : delivered ++ left = records := List.take_append_drop count records
  obtain ⟨clean, whole⟩ := everything_of_yields (starts.wellNested .empty) yields
  constructor
  · intro s' resumed
    obtain ⟨clean', kept⟩ := starts.everything_resuming resumed clean
    obtain ⟨u', yields'⟩ := yields_everything (resumed.wellNested .empty) clean'
    rw [kept, ← whole, ← split, List.filter_append, DomainRecord.filter_clears_self,
      List.nil_append] at yields'
    exact ⟨u', yields'⟩
  · intro d before r after lost
    exact starts.in_the_way clean (split.trans whole) before after lost

/-- An included file of two records, of which the first was delivered: the second one is left out,
and the record after the included file is handed out. -/
theorem yields_resumed_after_included :
    let words (chunks : List UInt32) : List UInt8 := chunks.flatMap bytesOfChunk
    let inner : Source := [.bytes (signature ++ words [1, 0, 3, 2, 8, 3, 2, 8])]
    let source : Source := [.bytes (signature ++
      words [1, 0, 7, 2, 9, 4, 0x0501, 1, 0x62, 3, 2, 8, 3, 0, 1])]
    let o : StreamOptions :=
      ⟨⟨none, true, .row, false⟩, .accepting, some (.named (.ofList [("b", inner)]))⟩
    let s := ofSource ⟨3, 5, "a"⟩ source o .empty
    let records := s.everything .empty
    let resumed := ofSource ⟨3, 5, "a"⟩ source (o.resuming (records.take 1)) .empty
    records.length = 3 ∧ ∃ u u', Records.Yields (.ofStream s .empty) (records.map .ok) u ∧
      Records.Yields (.ofStream resumed .empty) ((records.drop 2).map .ok) u' := by
  intro words inner source o s records resumed
  have starts : Starts ⟨3, 5, "a"⟩ source o .empty s := .new
  have clean : (s.rest .empty).isClean := by decide +kernel
  obtain ⟨u, yields⟩ := yields_everything (starts.wellNested .empty) clean
  obtain ⟨resumes, -⟩ := yields_resumed starts yields 1
  obtain ⟨u', yields'⟩ := resumes resumed .new
  have left : (records.drop 1).filter (fun r => (records.take 1).all r.clears) =
      records.drop 2 := by decide +kernel
  rw [left] at yields'
  exact ⟨by decide +kernel, u, u', yields, yields'⟩

/-- After the first one of two records of an included file, the second one is not handed out. -/
theorem included_record_left_out :
    let words (chunks : List UInt32) : List UInt8 := chunks.flatMap bytesOfChunk
    let inner : Source := [.bytes (signature ++ words [1, 0, 3, 2, 8, 3, 2, 8])]
    let source : Source := [.bytes (signature ++
      words [1, 0, 7, 2, 9, 4, 0x0501, 1, 0x62, 3, 2, 8, 3, 0, 1])]
    let o (gates : Gates) : StreamOptions :=
      ⟨⟨none, true, .row, false⟩, gates, some (.named (.ofList [("b", inner)]))⟩
    let items (gates : Gates) :=
      ((Records.ofStream (ofSource ⟨3, 5, "a"⟩ source (o gates) .empty) .empty).take 10).1
    let records := (items .accepting).filterMap Except.toOption
    let resume : ResumeFilter := .after (records.take 1)
    items .accepting = records.map .ok ∧
      items (Gates.accepting.replacing .filter resume.accepts) ≠ (records.drop 1).map .ok := by
  decide +kernel

/-- A summary is reported at the last entry of its transaction, also where it goes out later: here
after an entry of no table and no transaction, which is then in its way. -/
example :
    let words (chunks : List UInt32) : List UInt8 := chunks.flatMap bytesOfChunk
    let insert := Entry.encode 2 1
      [(0x0100, [1, 0x31]), (0x0101, [7, 0]), (0x0102, [1700000000, 0])]
    let source : Source := [.bytes (signature ++ words [1, 0] ++ insert ++ Entry.encode 2 8 [] ++
      Entry.encode 0 1 [])]
    let o : StreamOptions := ⟨⟨none, true, .row, false⟩, .accepting, none⟩
    let records := (ofSource ⟨3, 5, "a"⟩ source o .empty).everything .empty
    let resumed := ofSource ⟨3, 5, "a"⟩ source (o.resuming (records.take 2)) .empty
    records.map DomainRecord.isSummary = [false, false, true] ∧
      resumed.everything .empty = [] := by
  decide +kernel

end LogStream

end ChangeCapture
