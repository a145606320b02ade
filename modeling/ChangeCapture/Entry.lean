import ChangeCapture.EntryKind
import ChangeCapture.Registry
import ChangeCapture.Tag

/-! Entries of the log: three header chunks, then tags. The tags are kept by type, in encoded order
within each; `seq` restores the order of all. -/
namespace ChangeCapture

/-- Chunks before the tags: the length and the two types. -/
def entryHeader : Nat := 3

structure Entry where
  /-- Length in chunks, with the header. -/
  length : Nat
  major : UInt32
  subtype : UInt32
  /-- Byte offset of the first chunk. -/
  offset : Nat
  tags : Registry TagType (List Tag)
deriving DecidableEq, Repr

namespace Entry

def kind (e : Entry) : EntryKind := EntryKind.classify e.major e.subtype

def tagsOf (e : Entry) (t : TagType) : List Tag := (e.tags.get? t).getD []

def first? (e : Entry) (t : TagType) : Option Tag := (e.tagsOf t).head?

def has (e : Entry) (t : TagType) : Bool := (e.first? t).isSome

/-- What the first tag of a type says, if there is one. -/
def firstAs (read : Tag → Except Failure α) (e : Entry) (t : TagType) :
    Except Failure (Option α) :=
  match e.first? t with
  | some tag => (read tag).map some
  | none => .ok none

def word? (e : Entry) (t : TagType) : Except Failure (Option Nat) := firstAs Tag.word e t
def wide? (e : Entry) (t : TagType) : Except Failure (Option Nat) := firstAs Tag.wide e t
def text? (e : Entry) (t : TagType) : Except Failure (Option String) := firstAs Tag.text e t

def sizeInBytes (e : Entry) : Nat := e.length * chunkSize

/-- All tags by their position. -/
def inOrder (e : Entry) : List Tag :=
  e.tags.values.flatten.mergeSort (fun a b => a.seq ≤ b.seq)

def addTag (tags : Registry TagType (List Tag)) (tag : Tag) : Registry TagType (List Tag) :=
  tags.insert tag.type ((tags.get? tag.type).getD [] ++ [tag])

/-- The chunks of a tag as they are written. -/
def tagChunks (id : UInt32) (payload : List UInt32) : List UInt32 :=
  UInt32.ofNat (tagHeader + payload.length) :: id :: payload

/-- The chunks of an entry as they are written. -/
def chunks (major subtype : UInt32) (tags : List (UInt32 × List UInt32)) : List UInt32 :=
  let body := tags.flatMap (fun t => tagChunks t.1 t.2)
  UInt32.ofNat (entryHeader + body.length) :: major :: subtype :: body

def encode (major subtype : UInt32) (tags : List (UInt32 × List UInt32)) : List UInt8 :=
  (chunks major subtype tags).flatMap bytesOfChunk

end Entry

end ChangeCapture
