import ChangeCapture.Record
import ChangeCapture.Registry
import ChangeCapture.Warning

/-! Gates decide what is decoded, kept and delivered. A resume filter lets through what lies beyond
the last record that was delivered of each table. -/
namespace ChangeCapture

/-- What a gate gets to see of an entry or a record. -/
structure GateInput where
  kind : EntryKind
  schema : Option String
  offset : StreamOffset
deriving DecidableEq, Repr

def GateInput.ofRecord (r : DomainRecord) : GateInput := ⟨r.kind, r.schema?, r.offset⟩

inductive Gate where
  /-- Whether a metadata or change entry is decoded at all. -/
  | parse
  /-- Whether a decoded record is kept. -/
  | persist
  /-- Whether a kept record is delivered. -/
  | filter
deriving DecidableEq, Repr

/-- Gates answer by what they are asked about, and by nothing that was asked before. -/
abbrev Gates := Gate → GateInput → Bool

namespace Gates

def accepting : Gates := fun _ _ => true

/-- Decodes the entries of some tables only. An entry that is bound to no table always passes. -/
def tables (names : List String) : Gates
  | .parse, input => input.schema.all names.contains
  | _, _ => true

/-- The same gates but for one of them. -/
def replacing (gates : Gates) (gate : Gate) (passes : GateInput → Bool) : Gates :=
  fun g input => if g = gate then passes input else gates g input

end Gates

/-- The last offsets delivered, by table. -/
structure ResumeFilter where
  delivered : Registry (Option String) StreamOffset
deriving DecidableEq, Repr

namespace ResumeFilter

def empty : ResumeFilter := ⟨∅⟩

def last? (f : ResumeFilter) (schema : Option String) : Option StreamOffset :=
  f.delivered.get? schema

/-- Notes a delivery. An earlier offset than the last one changes nothing. -/
def deliver (f : ResumeFilter) (schema : Option String) (offset : StreamOffset) : ResumeFilter :=
  ⟨f.delivered.insert schema (((f.last? schema).getD .zero).later offset)⟩

/-- Whether what is found there has not been delivered yet. -/
def accepts (f : ResumeFilter) (input : GateInput) : Bool :=
  (f.last? input.schema).all (fun last => decide (last < input.offset))

end ResumeFilter

/-- What a stream says while it works. -/
inductive Notice where
  | warning (warning : Warning)
  | consulted (gate : Gate) (input : GateInput) (passes : Bool)
deriving DecidableEq, Repr

def Notice.warning? : Notice → Option Warning
  | warning w => some w
  | consulted _ _ _ => none

end ChangeCapture
