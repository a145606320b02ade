import ChangeCapture.Chunk

/-! Tags: the units of data of an entry. The payload accessors read what an encoding says and refuse
a payload that is too short for it. -/
namespace ChangeCapture

inductive TagType where
  | features
  | xid
  | scn
  | timestamp
  | objectId
  | objectOwner
  | objectName
  | columnId
  | columnName
  | columnType
  | keyImage
  | oldImage
  | newImage
  | lobData
  | lobOffset
  | lobLength
  | lobPosition
  | ddlJson
  | ddlSql
  | includeFileId
  | includeFileName
  | includeStart
  | includeRows
  /-- All identifiers that mean nothing to a reader. -/
  | unknown
deriving DecidableEq, Repr

namespace TagType

def ofId (id : UInt32) : TagType :=
  match id.toNat with
  | 0x0001 => features
  | 0x0100 => xid
  | 0x0101 => scn
  | 0x0102 => timestamp
  | 0x0200 => objectId
  | 0x0201 => objectOwner
  | 0x0202 => objectName
  | 0x0300 => columnId
  | 0x0301 => columnName
  | 0x0302 => columnType
  | 0x0310 => keyImage
  | 0x0311 => oldImage
  | 0x0312 => newImage
  | 0x0313 => lobData
  | 0x0320 => lobOffset
  | 0x0321 => lobLength
  | 0x0322 => lobPosition
  | 0x0400 => ddlJson
  | 0x0401 => ddlSql
  | 0x0500 => includeFileId
  | 0x0501 => includeFileName
  | 0x0502 => includeStart
  | 0x0503 => includeRows
  | _ => unknown

/-- Tags that carry an image of a column. -/
def isImage (t : TagType) : Bool := t = keyImage || t = oldImage || t = newImage || t = lobData

/-- Tags that say where a large object lies. -/
def isLocation (t : TagType) : Bool := t = lobOffset || t = lobLength || t = lobPosition

end TagType

/-- Chunks of a tag before its payload: its length and its identifier. -/
def tagHeader : Nat := 2

structure Tag where
  id : UInt32
  payload : List UInt32
  /-- Position among all tags of the entry. -/
  seq : Nat
deriving DecidableEq, Repr

namespace Tag

def type (t : Tag) : TagType := TagType.ofId t.id

/-- Length in chunks, with the header. -/
def length (t : Tag) : Nat := tagHeader + t.payload.length

def malformed (t : Tag) (fault : TagFault) : Except Failure α := .error (.malformedTag t.id fault)

def word (t : Tag) : Except Failure Nat :=
  match t.payload with
  | chunk :: _ => .ok chunk.toNat
  | [] => t.malformed .emptyPayload

/-- Two chunks, low word first. -/
def wide (t : Tag) : Except Failure Nat :=
  match t.payload with
  | low :: high :: _ => .ok (high.toNat * 2 ^ 32 + low.toNat)
  | _ => t.malformed (.shortPair t.payload.length)

/-- A chunk with the length in bytes, then the bytes. -/
def bytes (t : Tag) : Except Failure (List UInt8) :=
  match t.payload with
  | length :: data =>
    if chunkSize * data.length < length.toNat then
      t.malformed (.byteLength length.toNat data.length)
    else .ok (chunksToBytes data length.toNat)
  | [] => t.malformed .noByteLength

def text (t : Tag) : Except Failure String := do
  match Text.Utf8.decode (← t.bytes) with
  | .ok text => return text
  | .error fault => t.malformed (.notText fault)

/-- An image of a column; a payload without chunks is the null of SQL. -/
def value (t : Tag) : Except Failure (Option (List UInt8)) :=
  if t.payload.isEmpty then .ok none else t.bytes.map some

end Tag

end ChangeCapture
