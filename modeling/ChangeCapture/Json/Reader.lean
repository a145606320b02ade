import ChangeCapture.Json
import ChangeCapture.Text.Utf16

/-! Reading JSON text. The grammar is the strict one: no comments, no trailing commas, nothing but
blanks after the value. Every step uses up characters, so as many steps as there are characters
are enough. -/
namespace ChangeCapture.Json

namespace Reader

def isSpace (c : Char) : Bool := c = ' ' || c = '\n' || c = '\t' || c = '\r'

def skip (cs : List Char) : List Char := cs.dropWhile isSpace

def hexDigit? (c : Char) : Option Nat :=
  if c.isDigit then some (c.toNat - 48)
  else if 'a' ≤ c ∧ c ≤ 'f' then some (c.toNat - 87)
  else if 'A' ≤ c ∧ c ≤ 'F' then some (c.toNat - 55)
  else none

/-- The character that a letter after a backslash stands for. -/
def escape? : Char → Option Nat
  | '"' => some 0x22
  | '\\' => some 0x5C
  | '/' => some 0x2F
  | 'b' => some 0x08
  | 'f' => some 0x0C
  | 'n' => some 0x0A
  | 'r' => some 0x0D
  | 't' => some 0x09
  | _ => none

/-- The characters up to the closing quote, as code points; surrogates stand for themselves. -/
def stringBody : List Char → Option (List Nat × List Char)
  | [] => none
  | '"' :: rest => some ([], rest)
  | '\\' :: 'u' :: a :: b :: c :: d :: rest => do
    let unit := (((← hexDigit? a) * 16 + (← hexDigit? b)) * 16 + (← hexDigit? c)) * 16 +
      (← hexDigit? d)
    let (more, rest) ← stringBody rest
    return (unit :: more, rest)
  | '\\' :: c :: rest => do
    let unit ← escape? c
    let (more, rest) ← stringBody rest
    return (unit :: more, rest)
  | c :: rest =>
    if c.toNat < 0x20 ∨ c = '\\' then none
    else do
      let (more, rest) ← stringBody rest
      return (c.toNat :: more, rest)

def string? (cs : List Char) : Option (Option String × List Char) :=
  (stringBody cs).map (fun (units, rest) =>
    ((Text.Utf16.decodeUnits units).toOption.map String.ofList, rest))

def digitRun (cs : List Char) : List Char × List Char :=
  (cs.takeWhile Char.isDigit, cs.dropWhile Char.isDigit)

def fraction? : List Char → Option (Option (List Char) × List Char)
  | '.' :: cs =>
    let (run, rest) := digitRun cs
    if run = [] then none else some (some run, rest)
  | cs => some (none, cs)

def exponent? (cs : List Char) : Option (Option Int × List Char) :=
  match cs with
  | c :: rest =>
    if c = 'e' ∨ c = 'E' then
      let (negative, rest) := match rest with
        | '-' :: more => (true, more)
        | '+' :: more => (false, more)
        | _ => (false, rest)
      let (run, rest) := digitRun rest
      if run = [] then none
      else
        let n : Int := Text.natOfDigits run
        some (some (if negative then -n else n), rest)
    else some (none, cs)
  | [] => some (none, [])

/-- A whole part has no zero in front of other digits. -/
def number? (cs : List Char) : Option (JsonNumber × List Char) := do
  let (negative, cs) := match cs with
    | '-' :: rest => (true, rest)
    | _ => (false, cs)
  let (whole, cs) ← match cs with
    | '0' :: rest => some (['0'], rest)
    | _ =>
      let (run, rest) := digitRun cs
      if run = [] then none else some (run, rest)
  let (fraction, cs) ← fraction? cs
  let (exponent, cs) ← exponent? cs
  return (⟨negative, whole, fraction, exponent⟩, cs)

mutual

def value? : Nat → List Char → Option (Json × List Char)
  | 0, _ => none
  | fuel + 1, cs =>
    match skip cs with
    | 'n' :: 'u' :: 'l' :: 'l' :: rest => some (.null, rest)
    | 't' :: 'r' :: 'u' :: 'e' :: rest => some (.bool true, rest)
    | 'f' :: 'a' :: 'l' :: 's' :: 'e' :: rest => some (.bool false, rest)
    | '"' :: rest => (string? rest).map (fun (t, more) => (.text t, more))
    | '[' :: rest =>
      match skip rest with
      | ']' :: more => some (.array [], more)
      | _ => (items? fuel rest).map (fun (items, more) => (.array items, more))
    | '\x7b' :: rest =>
      match skip rest with
      | '\x7d' :: more => some (.object [], more)
      | _ => (members? fuel rest).map (fun (members, more) => (.object members, more))
    | other => (number? other).map (fun (n, more) => (.number n, more))

/-- One item or more, and the bracket that closes them. -/
def items? : Nat → List Char → Option (List Json × List Char)
  | 0, _ => none
  | fuel + 1, cs => do
    let (item, rest) ← value? fuel cs
    match skip rest with
    | ',' :: rest =>
      let (more, rest) ← items? fuel rest
      return (item :: more, rest)
    | ']' :: rest => return ([item], rest)
    | _ => none

/-- One member or more, and the brace that closes them. -/
def members? : Nat → List Char → Option (List (Option String × Json) × List Char)
  | 0, _ => none
  | fuel + 1, cs => do
    match skip cs with
    | '"' :: rest =>
      let (key, rest) ← string? rest
      match skip rest with
      | ':' :: rest =>
        let (item, rest) ← value? fuel rest
        match skip rest with
        | ',' :: rest =>
          let (more, rest) ← members? fuel rest
          return ((key, item) :: more, rest)
        | '\x7d' :: rest => return ([(key, item)], rest)
        | _ => none
      | _ => none
    | _ => none

end

end Reader

def parse? (text : String) : Option Json :=
  let cs := text.toList
  match Reader.value? (cs.length + 1) cs with
  | some (j, rest) => if (Reader.skip rest).isEmpty then some j else none
  | none => none

end ChangeCapture.Json
