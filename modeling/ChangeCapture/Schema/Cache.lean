import ChangeCapture.Evolution
import ChangeCapture.Registry

/-! Schema documents by the qualified names of their tables. Only a newer document replaces one. -/
namespace ChangeCapture

inductive SchemaChange where
  | created
  /-- Not newer than the document at hand. -/
  | stale
  | extended
  | truncated
  | replaced
deriving DecidableEq, Repr

def SchemaChange.ofEvolution : Evolution → SchemaChange
  | .unchanged => replaced
  | .extended => extended
  | .truncated => truncated

structure SchemaCache where
  documents : Registry String SchemaDocument
deriving DecidableEq, Repr

namespace SchemaCache

def empty : SchemaCache := ⟨∅⟩

def get? (s : SchemaCache) (name : String) : Option SchemaDocument := s.documents.get? name
def size (s : SchemaCache) : Nat := s.documents.size
def isEmpty (s : SchemaCache) : Bool := s.documents.isEmpty

def put (s : SchemaCache) (d : SchemaDocument) : SchemaCache :=
  ⟨s.documents.insert d.qualifiedName d⟩

/-- Whether the document at hand is no older than this one. -/
def hasAsNew (s : SchemaCache) (d : SchemaDocument) : Bool :=
  match s.get? d.qualifiedName with
  | some cached => d.validSince ≤ cached.validSince
  | none => false

def apply (s : SchemaCache) (d : SchemaDocument) : Except Failure (SchemaCache × SchemaChange) :=
  match s.get? d.qualifiedName with
  | none => .ok (s.put d, .created)
  | some cached =>
    if d.validSince ≤ cached.validSince then .ok (s, .stale)
    else do
      let (columns, evolution) ← evolveColumns d.qualifiedName cached.columns d.columns
      return (s.put { d with columns }, .ofEvolution evolution)

/-- Fails as `apply` would, and changes nothing. -/
def check (s : SchemaCache) (d : SchemaDocument) : Except Failure Unit :=
  match s.get? d.qualifiedName with
  | some cached =>
    if cached.validSince < d.validSince then
      checkColumns d.qualifiedName cached.columns d.columns
    else .ok ()
  | none => .ok ()

def markKeyColumns (s : SchemaCache) (name : String) (ordinals : List Nat) : SchemaCache :=
  ⟨s.documents.modify name
    (fun d => { d with columns := ChangeCapture.markKeyColumns d.columns ordinals })⟩

/-- Takes a document of `other` unless the one at hand is newer. -/
def takeNewer (documents : Registry String SchemaDocument) (entry : String × SchemaDocument) :
    Registry String SchemaDocument :=
  match documents.get? entry.1 with
  | some cached =>
    if entry.2.validSince < cached.validSince then documents else documents.insert entry.1 entry.2
  | none => documents.insert entry.1 entry.2

def merge (s other : SchemaCache) : SchemaCache :=
  ⟨other.documents.entries.foldl takeNewer s.documents⟩

end SchemaCache

end ChangeCapture
