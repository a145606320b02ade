import ChangeCapture.Proofs.Courses
import Mathlib.Data.List.Induction

/-! Streams in use. Whatever is asked of a stream, and however often that fails, leads along a run of
the stream. -/
namespace ChangeCapture

/-- What can be asked of a stream. -/
inductive Request where
  | read
  | flush
  | flushTransactions
deriving DecidableEq, Repr

/-- A stream in use, with what has been said, and the records that were taken from it. -/
structure Client where
  stream : LogStream
  journal : Journal
  taken : List DomainRecord

namespace Client

open LogStream

def ofStream (s : LogStream) (j : Journal) : Client := ⟨s, j, []⟩

/-- A reading that fails is asked for like any other. -/
def ask (c : Client) : Request → Client
  | .read =>
    let (_, stream, journal) := c.stream.read c.journal
    { c with stream, journal }
  | .flush => { c with stream := c.stream.flush.1, taken := c.taken ++ c.stream.flush.2 }
  | .flushTransactions =>
    let (stream, journal) := c.stream.flushTransactions c.journal
    { c with stream, journal }

def askAll (c : Client) (requests : List Request) : Client := requests.foldl ask c

def session (c : Client) : Session := c.stream.session c.journal

/-- Records that were taken, and those that may be taken next. -/
def emitted (c : Client) : List DomainRecord := c.taken ++ c.stream.state.batch

variable {flushing : Prop} {s : LogStream} {j : Journal} {c : Client} {ps : List Processed}

@[simp] theorem askAll_nil (c : Client) : c.askAll [] = c := rfl

@[simp] theorem askAll_snoc (c : Client) (requests : List Request) (r : Request) :
    c.askAll (requests ++ [r]) = (c.askAll requests).ask r := by
  simp [askAll]

theorem forall_snoc {p : List Request → Prop} {requests : List Request} {r x : Request} :
    (∀ n, (requests ++ [r])[n]? = some x → p ((requests ++ [r]).take n)) ↔
      (∀ n, requests[n]? = some x → p (requests.take n)) ∧ (r = x → p requests) := by
  constructor
  · refine fun all => ⟨fun n found => ?_, fun same => ?_⟩
    · have within := (List.getElem?_eq_some_iff.mp found).1
      have there := all n (by rwa [List.getElem?_append_left within])
      rwa [List.take_append_of_le_length (Nat.le_of_lt within)] at there
    · simpa using all requests.length (by simp [same])
  · rintro ⟨earlier, last⟩ n found
    rcases Nat.lt_or_ge n requests.length with within | beyond
    · rw [List.getElem?_append_left within] at found
      rw [List.take_append_of_le_length (Nat.le_of_lt within)]
      exact earlier n found
    · have size := (List.getElem?_eq_some_iff.mp found).1
      obtain rfl : n = requests.length := by
        rw [List.length_append, List.length_singleton] at size
        omega
      simp only [List.getElem?_concat_length, Option.some.injEq] at found
      simpa using last found

theorem course_ask_alone (c : Client) (nested : c.session.WellNested) {r : Request}
    (reads : r ≠ .flushTransactions) : ∃ qs more,
      Course False c.stream c.journal qs more (c.ask r).stream (c.ask r).journal ∧
        (c.ask r).taken = c.taken ++ more := by
  cases r with
  | read =>
    obtain ⟨qs, course⟩ := Course.start.read nested rfl
    exact ⟨_, [], course, (List.append_nil _).symm⟩
  | flush => exact ⟨[], c.stream.flush.2, Course.start.flush, rfl⟩
  | flushTransactions => exact absurd rfl reads

/-- A request leads on along a run, which may be told to emit what it holds. -/
theorem course_ask (course : Course flushing s j ps c.taken c.stream c.journal)
    (nested : c.session.WellNested) (r : Request) (allowed : r = .flushTransactions → flushing) :
    ∃ qs, Course flushing s j (ps ++ qs) (c.ask r).taken (c.ask r).stream (c.ask r).journal := by
  cases r with
  | read => exact course.read nested rfl
  | flush => exact ⟨[], (List.append_nil ps).symm ▸ course.flush⟩
  | flushTransactions =>
    exact ⟨[], (List.append_nil ps).symm ▸ course.flushTransactions (allowed rfl)⟩

theorem course_askAll (nested : (s.session j).WellNested) (requests : List Request) :
    let c := (ofStream s j).askAll requests
    ∃ ps, Course True s j ps c.taken c.stream c.journal := by
  induction requests using List.reverseRecOn with
  | nil => exact ⟨[], .start⟩
  | append_singleton requests r ih =>
    obtain ⟨ps, course⟩ := ih
    obtain ⟨qs, further⟩ := course_ask course (course.wellNested nested) r fun _ => trivial
    rw [askAll_snoc]
    exact ⟨ps ++ qs, further⟩

theorem nested_askAll (nested : (s.session j).WellNested) (requests : List Request) :
    ((ofStream s j).askAll requests).session.WellNested :=
  (course_askAll nested requests).choose_spec.wellNested nested

end Client

end ChangeCapture
