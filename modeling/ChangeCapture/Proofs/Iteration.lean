import ChangeCapture.LogStream.Records
import ChangeCapture.Proofs.Draining

/-! All records of a stream, one by one. What comes out of it are records, then at most one failure,
and then nothing any more. Where decoding fails, the records before the failure come out of the file
itself; those that still wait in files that it includes do not. -/
namespace ChangeCapture

/-- What is still held where reading ends: rows, and the summary of the last transaction. -/
def Outcome.lastRecords (o : StreamOptions) (x : Outcome) : List DomainRecord :=
  (Desk.flushTransactions o.gates ⟨x.session.state, x.session.journal⟩).state.batch

namespace Records

/-- Hands out these items one after the other, then nothing, however often it is asked. -/
inductive Yields : Records → List (Except Failure DomainRecord) → Records → Prop where
  | nil {r u} : r.next = (none, u) → u.next = (none, u) → Yields r [] u
  | cons {r r' u item items} : r.next = (some item, r') → Yields r' items u →
      Yields r (item :: items) u

variable {r r' u : Records} {items : List (Except Failure DomainRecord)}

theorem Yields.of_next (same : r.next = r'.next) (yields : Yields r' items u) :
    Yields r items u := by
  cases yields with
  | nil ends stays => exact .nil (same.trans ends) stays
  | cons next rest => exact .cons (same.trans next) rest

theorem Yields.take (yields : Yields r items u) (count : Nat) :
    (r.take count).1 = items.take count := by
  induction yields generalizing count with
  | nil ends _ =>
    cases count with
    | zero => rfl
    | succ count => rw [Records.take, ends, List.take_nil]
  | cons next _ ih =>
    cases count with
    | zero => rfl
    | succ count =>
      rw [Records.take, next]
      exact congrArg (_ :: ·) (ih count)

theorem next_of_buffer {record : DomainRecord} {buffer : List DomainRecord}
    (filled : r.buffer = record :: buffer) : r.next = (some (.ok record), { r with buffer }) := by
  rw [next, pop, filled]

theorem Yields.buffered (yields : Yields { r with buffer := [] } items u) :
    Yields r (r.buffer.map .ok ++ items) u := by
  generalize filled : r.buffer = buffer
  induction buffer generalizing r with
  | nil =>
    have same : { r with buffer := [] } = r := by rw [← filled]
    exact same ▸ yields
  | cons record buffer ih =>
    exact .cons (next_of_buffer filled) (ih (r := { r with buffer }) yields rfl)

theorem yields_finished (finished : r.finished) :
    Yields r (r.buffer.map .ok ++ r.failure.toList.map .error)
      { r with buffer := [], failure := none } := by
  have ends (u : Records) (done : u.finished) (nothing : u.buffer = []) (told : u.failure = none) :
      u.next = (none, u) := by
    rw [next, pop, nothing, told]
    exact if_pos done
  refine Yields.buffered ?_
  cases told : r.failure with
  | none => exact .nil (ends _ finished rfl rfl) (ends _ finished rfl rfl)
  | some f =>
    exact .cons rfl (.nil (ends _ finished rfl rfl) (ends _ finished rfl rfl))

theorem next_ofStream (s : LogStream) (j : Journal) :
    (ofStream s j).next = (ofStream s j).refill.next := next_eq _

end Records

namespace LogStream

variable {s t : LogStream} {j k : Journal}

/-- All records that are decoded: those that wait, and those that are left to decode. -/
def decoded (s : LogStream) (j : Journal) : List DomainRecord :=
  (s.session j).waiting ++ (s.rest j).records s.options

/-- What a stream hands out of what it decodes, record by record. -/
inductive Delivers (s : LogStream) (j : Journal) :
    List DomainRecord → Option Failure → Records → Prop where
  | clean {u} : (s.rest j).isClean →
      Delivers s j (s.decoded j ++ (s.rest j).lastRecords s.options) none u
  /-- Records that wait in included files are kept back. -/
  | failed {records f u} : (s.rest j).result = .error f → f ≠ .streamClosed →
      records ++ (u.stream.session u.journal).waiting = s.decoded j →
      ((s.rest j).session.included = [] → records = s.decoded j) →
      Delivers s j records (some f) u

theorem yields_more {items : List (Except Failure DomainRecord)} {u : Records}
    (read : s.read j = (.ok (), t, k)) (busy : t.isDone = false)
    (yields : Records.Yields (.ofStream t.flush.1 k) items u) :
    Records.Yields (.ofStream s j) (t.flush.2.map .ok ++ items) u := by
  have refilled : (Records.ofStream s j).refill = ⟨t.flush.1, k, t.flush.2, none, false⟩ := by
    rw [Records.refill, Records.readOn, Records.ofStream, read]
    simp only [busy]
    rfl
  have next := Records.next_ofStream s j
  rw [refilled] at next
  exact .of_next next (Records.Yields.buffered (r := ⟨t.flush.1, k, t.flush.2, none, false⟩) yields)

theorem yields_last {r : Records} (refilled : (Records.ofStream s j).refill = r)
    (finished : r.finished) :
    Records.Yields (.ofStream s j) (r.buffer.map .ok ++ r.failure.toList.map .error)
      { r with buffer := [], failure := none } := by
  have next := Records.next_ofStream s j
  rw [refilled] at next
  exact .of_next next (Records.yields_finished finished)

theorem yields_ended (refilled : (Records.ofStream s j).refill =
      ⟨(t.flushTransactions k).1.flush.1, (t.flushTransactions k).2,
        (t.flushTransactions k).1.flush.2, none, true⟩) :
    ∃ u, Records.Yields (.ofStream s j)
      ((t.flush.2 ++ (t.flush.1.flushTransactions k).1.flush.2).map .ok) u := by
  have held : (t.flushTransactions k).1.flush.2 =
      t.flush.2 ++ (t.flush.1.flushTransactions k).1.flush.2 := flushTransactions_batch t k
  have yields := yields_last refilled rfl
  rw [held] at yields
  exact ⟨_, by simpa using yields⟩

/-- What is handed out of a stream that can be drained: its records, and what is still held then. -/
theorem Drains.yields {records : List DomainRecord} (drains : Drains s j records t k)
    (nested : (s.session j).WellNested) : ∃ u, Records.Yields (.ofStream s j)
      ((records ++ (t.flushTransactions k).1.flush.2).map .ok) u := by
  induction drains with
  | @done s j t k read done =>
    refine yields_ended (t := t) (k := k) ?_
    rw [Records.refill, Records.readOn, Records.ofStream, read]
    simp only [done]
    rfl
  | @closed s j t k read =>
    refine yields_ended (t := t) (k := k) ?_
    rw [Records.refill, Records.readOn, Records.ofStream, read]
    rfl
  | @more s j t k records u l read busy _ ih =>
    obtain ⟨_, _, _, nestedThen⟩ := rest_of_read read nested
    obtain ⟨_, yields⟩ := ih nestedThen
    have yields := yields_more read busy yields
    exact ⟨_, by simpa using yields⟩

/-- What is handed out of a stream that fails: its records until then, and the failure. -/
theorem Breaks.yields {records : List DomainRecord} {f : Failure}
    (breaks : Breaks s j records f t k) (nested : (s.session j).WellNested) :
    ∃ u, Records.Yields (.ofStream s j) (records.map .ok ++ [.error f]) u ∧
      u.stream = t ∧ u.journal = k := by
  induction breaks with
  | @failed s j f t k read lasting =>
    have refilled : (Records.ofStream s j).refill = ⟨t.flush.1, k, t.flush.2, some f, true⟩ := by
      rw [Records.refill, Records.readOn, Records.ofStream, read]
      cases f <;> first | rfl | exact absurd rfl lasting
    exact ⟨_, yields_last refilled rfl, rfl, rfl⟩
  | @more s j t k records f u l read busy _ ih =>
    obtain ⟨_, _, _, nestedThen⟩ := rest_of_read read nested
    obtain ⟨_, yields, last⟩ := ih nestedThen
    have yields := yields_more read busy yields
    exact ⟨_, by simpa using yields, last⟩

theorem Drains.lastRecords {records : List DomainRecord} (drains : Drains s j records t k)
    (nested : (s.session j).WellNested) :
    (t.flushTransactions k).1.flush.2 = (s.rest j).lastRecords s.options := by
  have last := (drains.rest nested).2.2
  have ends : t.options = s.options ∧ t.state.batch = [] := by
    clear last
    induction drains with
    | done read | closed read => exact ⟨(read_leads read nested).1, rfl⟩
    | more read _ _ ih =>
      obtain ⟨_, _, _, nestedThen⟩ := rest_of_read read nested
      obtain ⟨options, empty⟩ := ih nestedThen
      exact ⟨options.trans (read_leads read nested).1, empty⟩
  rw [flushTransactions_batch, show t.flush.2 = [] from ends.2, ends.1, List.nil_append,
    Outcome.lastRecords, last]
  rfl

theorem Breaks.waiting {records : List DomainRecord} {f : Failure}
    (breaks : Breaks s j records f t k) (alone : (t.session k).bare.included = []) :
    (t.session k).waiting = [] := by
  have nothing : t.included = [] := by
    change Included.bare t.included = [] at alone
    cases open_ : t.included with
    | nil => rfl
    | cons i deeper =>
      rw [open_] at alone
      cases alone
  rw [waiting_of_alone nothing]
  clear alone nothing
  induction breaks with
  | failed => rfl
  | more _ _ _ ih => exact ih

/-- One by one, a stream hands out records, then at most one failure, then nothing however often it
is asked. Where the rest can be decoded these are all of its records and what is still held at the
end. Where decoding fails, the failure comes after the records that were decoded before it; only
those that wait in files included at that point are kept back, which is none of them if it is the
file itself that fails. -/
theorem yields_decoded (nested : (s.session j).WellNested) :
    ∃ records failure u, Records.Yields (.ofStream s j)
        (records.map .ok ++ failure.toList.map .error) u ∧ s.Delivers j records failure u := by
  rcases drains_or_breaks nested with ⟨records, t, k, drains⟩ | ⟨records, f, t, k, breaks⟩
  · obtain ⟨clean, all, -⟩ := drains.rest nested
    obtain ⟨u, yields⟩ := drains.yields nested
    rw [drains.lastRecords nested, show records = s.decoded j from all] at yields
    exact ⟨_, none, u, by simpa using yields, .clean clean⟩
  · obtain ⟨failed, lasting, all, last⟩ := breaks.rest nested
    obtain ⟨u, yields, rfl, rfl⟩ := breaks.yields nested
    refine ⟨records, some f, u, yields, .failed failed lasting all fun alone => ?_⟩
    rw [last] at alone
    rw [decoded, ← all, breaks.waiting alone, List.append_nil]

/-- A file with an entry that cannot be read after an included file of two records and a record. -/
theorem yields_decoded_malformed :
    let words (chunks : List UInt32) : List UInt8 := chunks.flatMap bytesOfChunk
    let inner : Source := [.bytes (signature ++ words [1, 0, 3, 2, 8, 3, 2, 8])]
    let source : Source := [.bytes (signature ++
      words [1, 0, 7, 2, 9, 4, 0x0501, 1, 0x62, 3, 2, 8, 2, 0, 0])]
    let o : StreamOptions :=
      ⟨⟨none, true, .row, false⟩, .accepting, some (.named (.ofList [("b", inner)]))⟩
    let s := ofSource ⟨3, 5, "a"⟩ source o .empty
    ∃ records f u, Records.Yields (.ofStream s .empty) (records.map .ok ++ [.error f]) u ∧
      records = s.decoded .empty ∧ records.length = 3 := by
  intro words inner source o s
  have starts : Starts ⟨3, 5, "a"⟩ source o .empty s := .new
  obtain ⟨records, failure, u, yields, delivers⟩ := yields_decoded (starts.wellNested .empty)
  have length : ((Records.ofStream s .empty).take 10).1.length = 4 := by decide +kernel
  rw [yields.take] at length
  cases delivers with
  | clean clean => exact absurd clean (by decide +kernel)
  | @failed _ f _ _ _ _ whole =>
    have alone : (s.rest .empty).session.included = [] := by decide +kernel
    refine ⟨records, f, u, yields, whole alone, ?_⟩
    simp only [List.length_take, List.length_append, List.length_map, Option.toList_some,
      List.length_singleton] at length
    omega

/-- An included file of two records and an entry that cannot be read: the records wait in the
included file when it fails, and none of them is handed out. -/
theorem withheld_records :
    let words (chunks : List UInt32) : List UInt8 := chunks.flatMap bytesOfChunk
    let inner : Source := [.bytes (signature ++ words [1, 0, 3, 2, 8, 3, 2, 8, 2, 0, 0])]
    let source : Source := [.bytes (signature ++ words [1, 0, 7, 2, 9, 4, 0x0501, 1, 0x62])]
    let o : StreamOptions :=
      ⟨⟨none, true, .row, false⟩, .accepting, some (.named (.ofList [("b", inner)]))⟩
    let s := ofSource ⟨3, 5, "a"⟩ source o .empty
    (s.decoded .empty).length = 2 ∧
      ((Records.ofStream s .empty).take 10).1.map (fun item => item.isOk) = [false] := by
  decide +kernel

end LogStream

end ChangeCapture
