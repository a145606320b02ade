import ChangeCapture.Config
import ChangeCapture.Text.Hex

/-! Settings as lines of a name, a colon and a scalar: the flat part of YAML. Names may be quoted, a
number sign after a blank begins a comment, and only a scalar without quotes is anything else than
text. -/
namespace ChangeCapture.Config

structure Scalar where
  quoted : Bool
  text : List Char
deriving DecidableEq, Repr

namespace Lines

def isSpace (c : Char) : Bool := c = ' ' || c = '\t'

def skip (cs : List Char) : List Char := cs.dropWhile isSpace

/-- Nothing, or a comment. -/
def isRest (cs : List Char) : Bool := (skip cs).head?.all (· = '#')

/-- Lines without the characters that end them. -/
def split : List Char → List (List Char)
  | [] => [[]]
  | '\x0d' :: '\n' :: cs => [] :: split cs
  | c :: cs =>
    if c = '\n' ∨ c = '\x0d' then [] :: split cs
    else match split cs with
      | line :: more => (c :: line) :: more
      | [] => [[c]]

/-- The text up to the closing quote, in which two quotes stand for one. -/
def single? : List Char → Option (List Char × List Char)
  | '\x27' :: '\x27' :: cs => (single? cs).map (fun (text, rest) => ('\x27' :: text, rest))
  | '\x27' :: cs => some ([], cs)
  | c :: cs => (single? cs).map (fun (text, rest) => (c :: text, rest))
  | [] => none

/-- The character that a letter after a backslash stands for. -/
def escape? : Char → Option Nat
  | '0' => some 0x00
  | 'a' => some 0x07
  | 'b' => some 0x08
  | 't' | '\t' => some 0x09
  | 'n' => some 0x0A
  | 'v' => some 0x0B
  | 'f' => some 0x0C
  | 'r' => some 0x0D
  | 'e' => some 0x1B
  | ' ' => some 0x20
  | '"' => some 0x22
  | '/' => some 0x2F
  | '\\' => some 0x5C
  | 'N' => some 0x85
  | '_' => some 0xA0
  | 'L' => some 0x2028
  | 'P' => some 0x2029
  | _ => none

/-- Digits of a character that is given by its code point. -/
def codeWidth? : Char → Option Nat
  | 'x' => some 2
  | 'u' => some 4
  | 'U' => some 8
  | _ => none

def codePoint? (digits : List Char) : Option Char := do
  let value := (← digits.mapM Text.digitOfHex?).foldl (fun n d => 16 * n + d) 0
  if value.isValidChar then some (Char.ofNat value) else none

/-- The text up to the closing quote, with its escapes replaced. The next `skipped` characters
belong to an escape that was replaced already. -/
def double? (skipped : Nat) : List Char → Option (List Char × List Char)
  | [] => none
  | c :: cs =>
    match skipped with
    | n + 1 => double? n cs
    | 0 =>
      if c = '"' then some ([], cs)
      else if c = '\\' then do
        let letter ← cs.head?
        let (value, skipped) ← match codeWidth? letter with
          | some width =>
            let digits := (cs.drop 1).take width
            if digits.length = width then (codePoint? digits).map (·, width + 1) else none
          | none => (escape? letter).map (Char.ofNat ·, 1)
        let (text, rest) ← double? skipped cs
        return (value :: text, rest)
      else do
        let (text, rest) ← double? 0 cs
        return (c :: text, rest)

/-- Characters that mean something else at the front of a scalar. -/
def indicators : List Char :=
  [',', '[', ']', '\x7b', '\x7d', '#', '&', '*', '!', '|', '>', '\x27', '"', '%', '@', '\x60']

/-- Dashes, question marks and colons only count before a blank. -/
def beginsPlain : List Char → Bool
  | [] => false
  | c :: rest =>
    if c = '-' ∨ c = '?' ∨ c = ':' then rest.head?.any (! isSpace ·) else !indicators.contains c

/-- A text without quotes, up to a comment or to a colon before a blank or the end. -/
def plain : List Char → List Char × List Char
  | [] => ([], [])
  | c :: cs =>
    if c = ':' ∧ cs.head?.all isSpace then ([], c :: cs)
    else if isSpace c ∧ cs.head? = some '#' then ([], c :: cs)
    else
      let (text, rest) := plain cs
      (c :: text, rest)

def trimEnd (cs : List Char) : List Char := (skip cs.reverse).reverse

/-- A scalar at the front, which is not blank, and what follows it. -/
def scalar? : List Char → Option (Scalar × List Char)
  | '\x27' :: cs => (single? cs).map (fun (text, rest) => (⟨true, text⟩, rest))
  | '"' :: cs => (double? 0 cs).map (fun (text, rest) => (⟨true, text⟩, rest))
  | cs =>
    if beginsPlain cs then
      let (text, rest) := plain cs
      some (⟨false, trimEnd text⟩, rest)
    else none

/-- The scalar behind a colon; there may be none. -/
def value? (cs : List Char) : Option Scalar :=
  if isRest cs then some ⟨false, []⟩
  else do
    let (value, rest) ← scalar? (skip cs)
    if isRest rest then some value else none

def line? (cs : List Char) : Option (String × Scalar) := do
  let (name, rest) ← scalar? cs
  match skip rest with
  | ':' :: rest =>
    if rest.head?.all isSpace then return (String.ofList name.text, ← value? rest) else none
  | _ => none

/-- The settings of a text, whose lines are all indented alike. Two braces stand for no settings. -/
def settings? (text : String) : Option (List (String × Scalar)) :=
  let lines := (split text.toList).filter (! isRest ·)
  match lines.map trimEnd with
  | [] => some []
  | [single] =>
    if (skip single).take 2 = ['\x7b', '\x7d'] ∧ isRest ((skip single).drop 2) then some []
    else (line? (single.dropWhile (· = ' '))).map ([·])
  | lines =>
    let indent (cs : List Char) := (cs.takeWhile (· = ' ')).length
    if lines.all (fun l => indent l = indent (lines.headD [])) then
      lines.mapM (fun l => line? (l.dropWhile (· = ' ')))
    else none

end Lines

namespace Scalar

def isNull (s : Scalar) : Bool :=
  !s.quoted && ["", "~", "null", "Null", "NULL"].contains (String.ofList s.text)

def bool? (s : Scalar) : Option Bool :=
  if s.quoted then none
  else if ["true", "True", "TRUE"].contains (String.ofList s.text) then some true
  else if ["false", "False", "FALSE"].contains (String.ofList s.text) then some false
  else none

def digits? (base : Nat) (cs : List Char) : Option Nat := do
  let values ← cs.mapM Text.digitOfHex?
  if values ≠ [] ∧ values.all (· < base) then
    some (values.foldl (fun n d => base * n + d) 0)
  else none

/-- Digits in base ten, or in another base behind its mark. Zeros in front make a text. -/
def magnitude? : List Char → Option Nat
  | '0' :: 'x' :: cs => digits? 16 cs
  | '0' :: 'o' :: cs => digits? 8 cs
  | '0' :: 'b' :: cs => digits? 2 cs
  | ['0'] => some 0
  | '0' :: _ => none
  | cs => digits? 10 cs

/-- A number of 64 bits. Only zero may have a minus in front. -/
def nat? (s : Scalar) : Option Nat :=
  if s.quoted then none
  else match s.text with
    | '-' :: rest => (magnitude? rest).filter (· = 0)
    | '+' :: rest => (magnitude? rest).filter (· < 2 ^ 64)
    | text => (magnitude? text).filter (· < 2 ^ 64)

end Scalar

/-- The value of a setting, which is given at most once. -/
def setting? (settings : List (String × Scalar)) (name : String) (default : α)
    (read : Scalar → Option α) : Option α :=
  match settings.filter (fun s => s.1 = name) with
  | [] => some default
  | [(_, value)] => read value
  | _ => none

def ofLines? (text : String) : Option Config := do
  let settings ← Lines.settings? text
  return {
    batchSize := ← setting? settings "batch_size" default.batchSize
      (fun s => if s.isNull then some none else s.nat?.map some)
    mergeMultipart := ← setting? settings "merge_multipart" default.mergeMultipart Scalar.bool?
    view := ← setting? settings "view" default.view
      (fun s => ChangeView.ofName? (String.ofList s.text))
    requireFeatures := ← setting? settings "require_features" default.requireFeatures
      Scalar.bool? }

end ChangeCapture.Config
