import ChangeCapture.Action
import ChangeCapture.Power
import ChangeCapture.Source

/-! Reading an input in chunks of four bytes, low byte first, under a running byte offset. Only what
a read delivers moves the offset: neither a failing read nor a pause does. -/
namespace ChangeCapture

/-- Bytes in a chunk. -/
def chunkSize : Nat := 4

def chunkOfBytes : List UInt8 → UInt32
  | a :: b :: c :: d :: _ =>
    UInt32.ofNat (a.toNat + 2 ^ 8 * b.toNat + 2 ^ 16 * c.toNat + 2 ^ 24 * d.toNat)
  | _ => 0

def bytesOfChunk (chunk : UInt32) : List UInt8 :=
  [chunk.toUInt8, (chunk >>> 8).toUInt8, (chunk >>> 16).toUInt8, (chunk >>> 24).toUInt8]

/-- The first `length` bytes that the chunks spell. -/
def chunksToBytes (chunks : List UInt32) (length : Nat) : List UInt8 :=
  (chunks.flatMap bytesOfChunk).take length

/-- Chunks that spell the bytes, the last one filled up with zeros. -/
def bytesToChunks : List UInt8 → List UInt32
  | a :: b :: c :: d :: rest => chunkOfBytes [a, b, c, d] :: bytesToChunks rest
  | [a, b, c] => [chunkOfBytes [a, b, c, 0]]
  | [a, b] => [chunkOfBytes [a, b, 0, 0]]
  | [a] => [chunkOfBytes [a, 0, 0, 0]]
  | [] => []

structure ChunkReader where
  source : Source
  /-- Bytes read so far. -/
  offset : Nat
deriving DecidableEq, Repr

/-- An action on a reader; what it took stays taken when it fails. -/
abbrev Reading := Action ChunkReader

namespace ChunkReader

def ofSource (source : Source) : ChunkReader := ⟨source, 0⟩

/-- At most `count` bytes, fewer only where the input ends for now. -/
def gather (count : Nat) : Reading (List UInt8) := fun r =>
  match r.source.gather count with
  | (.error message, source) => (.error (.input (some message)), { r with source })
  | (.ok bytes, source) => (.ok bytes, ⟨source, r.offset + bytes.length⟩)

def truncated : Reading α := do throw (.truncated (← get).offset)

/-- Exactly `count` bytes, or none at a clean end of the input. -/
def bytes? (count : Nat) : Reading (Option (List UInt8)) := do
  let bytes ← gather count
  if bytes.isEmpty then return none
  else if bytes.length < count then truncated
  else return some bytes

def chunk? : Reading (Option UInt32) := do
  return (← bytes? chunkSize).map chunkOfBytes

/-- A chunk that has to be there. -/
def chunk : Reading UInt32 := do
  match ← chunk? with
  | some chunk => return chunk
  | none => truncated

def chunks : Nat → Reading (List UInt32)
  | 0 => return []
  | n + 1 => return (← chunk) :: (← chunks n)

end ChunkReader

end ChangeCapture
