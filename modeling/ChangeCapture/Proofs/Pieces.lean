import ChangeCapture.Proofs.Flow

/-! Reading a byte string that comes in pieces. However it is cut, and wherever a read has to be tried
again, a reader gives the same answers and comes equally far: it has taken the bytes up to its offset,
and just the other ones are still to come. This outlasts answers that are failures. -/
namespace ChangeCapture

/-- A source gives a byte string in pieces, may be interrupted before and after each of them, and then
ends. -/
inductive Source.Delivers : List UInt8 → Source → Prop where
  | ended : Delivers [] []
  | interrupted {content s} : Delivers content s → Delivers content (.interrupted :: s)
  | piece {content s} (piece : List UInt8) : piece ≠ [] → Delivers content s →
      Delivers (piece ++ content) (.bytes piece :: s)

/-- As many bytes are gathered as there are, up to those asked for, and the others come in pieces
again. -/
theorem Source.Delivers.gather {content : List UInt8} {s : Source} (delivers : Delivers content s)
    (n : Nat) : (Source.gather n s).1 = .ok (content.take n) ∧
      Delivers (content.drop n) (Source.gather n s).2 := by
  induction delivers generalizing n with
  | ended => cases n <;> exact ⟨rfl, .ended⟩
  | interrupted rest ih =>
    cases n with
    | zero => exact ⟨rfl, .interrupted rest⟩
    | succ n => exact ih (n + 1)
  | @piece content s piece some rest ih =>
    cases n with
    | zero => exact ⟨rfl, .piece piece some rest⟩
    | succ n =>
      rw [Source.gather]
      split
      next fits =>
        obtain ⟨given, left⟩ := ih (n + 1 - piece.length)
        dsimp only
        rw [given, List.take_append, List.drop_append, List.take_of_length_le fits,
          List.drop_of_length_le fits]
        exact ⟨rfl, left⟩
      next long =>
        have within : n + 1 ≤ piece.length := Nat.le_of_not_le long
        rw [List.take_append_of_le_length within, List.drop_append_of_le_length within]
        exact ⟨rfl, .piece _ (by simpa using Nat.lt_of_not_le long) rest⟩

namespace ChunkReader

open ChangeCapture.Action

/-- What a reader can be asked for. -/
inductive Call where
  | chunk?
  | chunk
  | chunks (count : Nat)
  | bytes? (count : Nat)
  | fileHeader
  | next
deriving DecidableEq, Repr

inductive Answer where
  | chunk? (found : Option UInt32)
  | chunk (found : UInt32)
  | chunks (found : List UInt32)
  | bytes? (found : Option (List UInt8))
  | fileHeader (found : FileHeader)
  | next (found : Entry)
deriving DecidableEq, Repr

def Call.reading : Call → Reading Answer
  | .chunk? => return .chunk? (← ChunkReader.chunk?)
  | .chunk => return .chunk (← ChunkReader.chunk)
  | .chunks count => return .chunks (← ChunkReader.chunks count)
  | .bytes? count => return .bytes? (← ChunkReader.bytes? count)
  | .fileHeader => return .fileHeader (← ChunkReader.fileHeader)
  | .next => return .next (← ChunkReader.next)

/-- The reader after some calls, which go on where one of them fails. -/
def after (calls : List Call) (r : ChunkReader) : ChunkReader :=
  calls.foldl (fun r call => (call.reading r).2) r

/-- The answers to some calls, with the offset after each of them. -/
def answers : List Call → ChunkReader → List (Except Failure Answer × Nat)
  | [], _ => []
  | call :: calls, r =>
    ((call.reading r).1, (call.reading r).2.offset) :: answers calls (call.reading r).2

theorem Level.call {R : ChunkReader → ChunkReader → Prop} (level : Level R) (call : Call) :
    Similar R call.reading call.reading := by
  cases call with
  | chunk? => exact level.chunk?.bind fun _ => .pure _
  | chunk => exact level.chunk.bind fun _ => .pure _
  | chunks count => exact (level.chunks count).bind fun _ => .pure _
  | bytes? count => exact (level.bytes? count).bind fun _ => .pure _
  | fileHeader => exact level.fileHeader.bind fun _ => .pure _
  | next => exact level.next.bind fun _ => .pure _

theorem Level.answers {R : ChunkReader → ChunkReader → Prop} (level : Level R) (calls : List Call)
    {r r' : ChunkReader} (related : R r r') :
    ChunkReader.answers calls r = ChunkReader.answers calls r' ∧
      R (after calls r) (after calls r') := by
  induction calls generalizing r r' with
  | nil => exact ⟨rfl, related⟩
  | cons call calls ih =>
    obtain ⟨same, next⟩ := level.call call r r' related
    obtain ⟨rest, last⟩ := ih next
    refine ⟨?_, last⟩
    rw [ChunkReader.answers, ChunkReader.answers, same, level.offset next, rest]

/-- The bytes before the offset of a reader are taken, the other ones are to come in pieces. -/
structure Amid (content : List UInt8) (r : ChunkReader) : Prop where
  within : r.offset ≤ content.length
  left : Source.Delivers (content.drop r.offset) r.source

theorem Amid.gather {content : List UInt8} {r : ChunkReader} (amid : Amid content r) (n : Nat) :
    (gather n r).1 = .ok ((content.drop r.offset).take n) ∧ Amid content (gather n r).2 ∧
      (gather n r).2.offset = r.offset + ((content.drop r.offset).take n).length := by
  obtain ⟨given, left⟩ := amid.left.gather n
  unfold ChunkReader.gather
  rcases hg : r.source.gather n with ⟨result, source⟩
  rw [hg] at given left
  obtain rfl : result = _ := given
  have within := amid.within
  have taken : ((content.drop r.offset).take n).length = min n (content.length - r.offset) := by
    rw [List.length_take, List.length_drop]
  refine ⟨rfl, ⟨?_, ?_⟩, rfl⟩
  · show r.offset + _ ≤ _
    omega
  · show Source.Delivers (content.drop (r.offset + _)) source
    rw [List.drop_drop] at left
    rw [taken]
    by_cases there : n ≤ content.length - r.offset
    · rwa [Nat.min_eq_left there]
    · rw [List.drop_of_length_le (by omega)] at left
      rwa [List.drop_of_length_le (by omega)]

/-- Readers that have come equally far in one byte string cannot be told apart. -/
theorem level_amid (content : List UInt8) :
    Level fun r r' => r.offset = r'.offset ∧ Amid content r ∧ Amid content r' where
  offset related := related.1
  gather n r r' related := by
    obtain ⟨same, amid, amid'⟩ := related
    obtain ⟨given, next, offset⟩ := amid.gather n
    obtain ⟨given', next', offset'⟩ := amid'.gather n
    rw [← same] at given' offset'
    exact ⟨given.trans given'.symm, offset.trans offset'.symm, next, next'⟩

theorem amid_ofSource {content : List UInt8} {s : Source} (delivers : Source.Delivers content s) :
    Amid content (ofSource s) := ⟨Nat.zero_le _, delivers⟩

/-- Whatever is asked of readers of one byte string, they answer alike, and the offset counts the bytes
taken. -/
theorem answers_in_pieces {content : List UInt8} {s s' : Source}
    (one : Source.Delivers content s) (other : Source.Delivers content s') (calls : List Call) :
    answers calls (ofSource s) = answers calls (ofSource s') ∧
      Amid content (after calls (ofSource s)) := by
  have start : (ofSource s).offset = (ofSource s').offset ∧ Amid content (ofSource s) ∧
      Amid content (ofSource s') := ⟨rfl, amid_ofSource one, amid_ofSource other⟩
  obtain ⟨same, -, amid, -⟩ := (level_amid content).answers calls start
  exact ⟨same, amid⟩

/-- Five bytes at once, or in three pieces with an interruption: a chunk, and what is too short for
another one. -/
theorem answers_in_pieces_interrupted :
    answers [.next, .chunk, .bytes? 1] (ofSource [.bytes [3, 0, 0, 0, 7]]) =
        answers [.next, .chunk, .bytes? 1]
          (ofSource [.bytes [3], .interrupted, .bytes [0, 0, 0], .bytes [7]]) ∧
      Amid [3, 0, 0, 0, 7] (after [.next, .chunk, .bytes? 1] (ofSource [.bytes [3, 0, 0, 0, 7]])) :=
  answers_in_pieces (.piece [3, 0, 0, 0, 7] (by decide) .ended)
    (.piece [3] (by decide) (.interrupted (.piece [0, 0, 0] (by decide)
      (.piece [7] (by decide) .ended)))) _

end ChunkReader

end ChangeCapture
