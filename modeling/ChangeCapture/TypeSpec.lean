import ChangeCapture.Column
import ChangeCapture.Text.DecimalDigit
import ChangeCapture.Text.Numeral

/-! Declared types such as `NUMBER(10,2)` or `TIMESTAMP(6) WITH TIME ZONE`. The first size in
parentheses gives precision and scale; the words around all sizes name the type. -/
namespace ChangeCapture

structure TypeSpec where
  dataType : DataType
  precision : Int
  scale : Int
deriving DecidableEq, Repr

namespace TypeSpec

/-- The digits of a size; the second number may have a minus sign or be missing. -/
structure Size where
  first : List Char
  second : Option (List Char)
deriving DecidableEq, Repr

def digitRun? (cs : List Char) : Option (List Char × List Char) :=
  match cs.takeWhile Text.isDecimalDigit with
  | [] => none
  | run => some (run, cs.dropWhile Text.isDecimalDigit)

/-- The units that a size of characters may be counted in, in any case. -/
def dropUnit (cs : List Char) : List Char :=
  let word := String.ofList ((cs.take 4).map Char.toUpper)
  if word = "BYTE" ∨ word = "CHAR" then cs.drop 4 else cs

def second? (cs : List Char) : Option (Option (List Char) × List Char) :=
  match cs with
  | ',' :: rest => do
    let (sign, rest) := match Text.trimStart rest with
      | '-' :: more => (['-'], more)
      | more => ([], more)
    let (run, rest) ← digitRun? rest
    return (some (sign ++ run), Text.trimStart rest)
  | _ => some (none, cs)

/-- A size at the front, and what follows it. -/
def size? : List Char → Option (Size × List Char)
  | '(' :: rest => do
    let (first, rest) ← digitRun? (Text.trimStart rest)
    let (second, rest) ← second? (Text.trimStart (dropUnit (Text.trimStart rest)))
    match rest with
    | ')' :: rest => return (⟨first, second⟩, rest)
    | _ => none
  | _ => none

/-- All sizes from the left, and the text with a space for each. The next `skip` characters belong to
a size that was found already. -/
def scan (skip : Nat) : List Char → List Size × List Char
  | [] => ([], [])
  | c :: cs =>
    match skip with
    | n + 1 => scan n cs
    | 0 =>
      match size? (c :: cs) with
      | some (size, rest) =>
        let (sizes, text) := scan (cs.length - rest.length) cs
        (size :: sizes, ' ' :: text)
      | none =>
        let (sizes, text) := scan 0 cs
        (sizes, c :: text)

/-- A number of 32 bits; anything else counts as zero. -/
def sizeValue (cs : List Char) : Int := (Text.signed? 32 cs).getD 0

def parse (spec : String) : TypeSpec :=
  let (sizes, text) := scan 0 spec.toList
  let dataType := DataType.ofName (String.ofList (Text.squeeze text))
  match sizes with
  | size :: _ => ⟨dataType, sizeValue size.first, (size.second.map sizeValue).getD 0⟩
  | [] => ⟨dataType, 0, 0⟩

def column (t : TypeSpec) (id : Nat) (name : String) : Column :=
  { Column.ofType id name t.dataType with precision := t.precision, scale := t.scale }

end TypeSpec

end ChangeCapture
