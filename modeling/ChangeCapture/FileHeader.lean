import ChangeCapture.Chunk

/-! The head of a file: eight bytes of signature, then the version. The features of a file come later,
in its header entry. -/
namespace ChangeCapture

/-- `PLOG`, a line feed, a space, a vertical tab and a carriage return. -/
def signature : List UInt8 := [0x50, 0x4C, 0x4F, 0x47, 0x0A, 0x20, 0x0B, 0x0D]

def supportedMajor : Nat := 1

structure FileHeader where
  major : Nat
  minor : Nat
deriving DecidableEq, Repr

def ChunkReader.fileHeader : Reading FileHeader := do
  match ← bytes? signature.length with
  | none => truncated
  | some found =>
    if found ≠ signature then throw (.invalidSignature found)
    else
      let major := (← chunk).toNat
      let minor := (← chunk).toNat
      if major ≠ supportedMajor then throw (.unsupportedVersion major minor)
      else return ⟨major, minor⟩

structure Features where
  bits : UInt32
deriving DecidableEq, Repr

namespace Features

def none : Features := ⟨0⟩
def schemaDocument : UInt32 := 2
def commitOnly : UInt32 := 4

def contains (f : Features) (flags : UInt32) : Bool := f.bits &&& flags = flags

/-- Changes can be decoded only in files that hold committed changes and schema documents. -/
def supportsData (f : Features) : Bool := f.contains (commitOnly ||| schemaDocument)

end Features

end ChangeCapture
