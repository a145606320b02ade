import ChangeCapture.LogStream

/-! All records of a stream, one by one: the records before a failure, the failure, and nothing more.
After a clean end the summary of the last transaction comes last. -/
namespace ChangeCapture

structure Records where
  stream : LogStream
  journal : Journal
  /-- Records that were read and not handed out. -/
  buffer : List DomainRecord
  failure : Option Failure
  finished : Bool

namespace Records

def ofStream (s : LogStream) (j : Journal) : Records := ⟨s, j, [], none, false⟩

def finish (r : Records) : Records :=
  let (stream, journal) := r.stream.flushTransactions r.journal
  { r with stream, journal, finished := true }

/-- After one more read. -/
def readOn (r : Records) : Records :=
  let (result, stream, journal) := r.stream.read r.journal
  let r := { r with stream, journal }
  match result with
  | .ok () => if stream.isDone then r.finish else r
  | .error .streamClosed => r.finish
  | .error f => { r with failure := some f, finished := true }

/-- One more batch in the buffer. -/
def refill (r : Records) : Records :=
  let r := r.readOn
  let (stream, records) := r.stream.flush
  { r with stream, buffer := r.buffer ++ records }

/-- What is there without reading on. -/
def pop (r : Records) : Option (Except Failure DomainRecord) × Records :=
  match r.buffer, r.failure with
  | record :: buffer, _ => (some (.ok record), { r with buffer })
  | [], some f => (some (.error f), { r with failure := none })
  | [], none => (none, r)

/-- A read that neither fails nor ends the file leaves something to hand out. -/
theorem progress_refill (r : Records) : r.refill.buffer ≠ [] ∨ r.refill.finished := by
  unfold refill readOn
  rcases read : r.stream.read r.journal with ⟨f | _, stream, journal⟩
  · cases f <;> exact .inr rfl
  dsimp only
  split
  · exact .inr rfl
  next busy =>
    refine .inl fun nothing => ?_
    have full := (LogStream.full_of_read read).resolve_right busy
    have waits : stream.state.batch = [] := (List.append_eq_nil_iff.mp nothing).2
    rw [waits, Config.effectiveBatchSize, List.length_nil] at full
    omega

/-- The next item. -/
def next (r : Records) : Option (Except Failure DomainRecord) × Records :=
  match r.pop with
  | (some item, r) => (some item, r)
  | (none, r) => if r.finished then (none, r) else r.refill.pop

/-- Reading goes on until there is an item or everything is finished. -/
theorem next_eq (r : Records) : r.next = match r.pop with
    | (some item, r) => (some item, r)
    | (none, r) => if r.finished then (none, r) else r.refill.next := by
  have refilled (r : Records) : r.refill.next = r.refill.pop := by
    rw [next]
    rcases popped : r.refill.pop with ⟨_ | item, r'⟩
    · have nothing : r.refill.buffer = [] ∧ r' = r.refill := by
        unfold pop at popped
        split at popped <;> cases popped
        exact ⟨‹_›, rfl⟩
      have finished := r.progress_refill.resolve_left (not_not_intro nothing.1)
      dsimp only
      rw [nothing.2, if_pos finished]
    · rfl
  rw [next]
  rcases r.pop with ⟨_ | item, r'⟩
  · dsimp only
    rw [refilled]
  · rfl

/-- At most `count` items. -/
def take (r : Records) : Nat → List (Except Failure DomainRecord) × Records
  | 0 => ([], r)
  | count + 1 =>
    match r.next with
    | (none, r) => ([], r)
    | (some item, r) =>
      let (items, r) := r.take count
      (item :: items, r)

end Records

end ChangeCapture
