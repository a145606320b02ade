import ChangeCapture.Timestamp
import ChangeCapture.Text.Blank
import ChangeCapture.Text.Numeral

/-! Timestamps read from text: date, time and offset from UTC as in RFC 3339, with white space
allowed around the parts and a signed year of any length. -/
namespace ChangeCapture.Timestamp

/-- Between one and `most` digits at the front, and what follows them. -/
def digits? (most : Nat) (cs : List Char) : Option (Nat × List Char) :=
  let run := (cs.take most).takeWhile Char.isDigit
  (Text.natOfDigits? run).map (fun n => (n, cs.drop run.length))

def field? (most : Nat) (cs : List Char) : Option (Nat × List Char) :=
  digits? most (Text.trimStart cs)

def year? (cs : List Char) : Option (Int × List Char) :=
  match Text.trimStart cs with
  | '-' :: rest => (digits? rest.length rest).map (fun (n, more) => (-(n : Int), more))
  | '+' :: rest => (digits? rest.length rest).map (fun (n, more) => ((n : Int), more))
  | rest => (digits? 4 rest).map (fun (n, more) => ((n : Int), more))

def mark? (mark : Char) (cs : List Char) : Option (List Char) :=
  match Text.trimStart cs with
  | c :: rest => if c = mark then some rest else none
  | [] => none

/-- Digits behind the second, in nanoseconds; those after the ninth are not looked at. -/
def fraction? : List Char → Option (Nat × List Char)
  | '.' :: cs =>
    let run := (cs.take 9).takeWhile Char.isDigit
    (Text.natOfDigits? run).map
      (fun n => (n * 10 ^ (9 - run.length), (cs.drop run.length).dropWhile Char.isDigit))
  | cs => some (0, cs)

/-- Seconds east of UTC. -/
def offset? (cs : List Char) : Option (Int × List Char) :=
  let upper := (cs.take 3).map Char.toUpper
  if upper = ['U', 'T', 'C'] then some (0, cs.drop 3)
  else match cs with
  | 'Z' :: rest | 'z' :: rest => some (0, rest)
  | sign :: rest => do
    let negative ← if sign = '+' then some false
      else if sign = '-' ∨ sign = '\u2212' then some true else none
    let hours ← if (rest.take 2).length = 2 then Text.natOfDigits? (rest.take 2) else none
    let rest := (rest.drop 2).dropWhile (fun c => c = ':' || Text.isBlank c)
    let minutes ← if (rest.take 2).length = 2 then Text.natOfDigits? (rest.take 2) else none
    if minutes < 60 ∧ hours < 24 then
      let seconds : Int := (hours * 60 + minutes) * 60
      some (if negative then -seconds else seconds, rest.drop 2)
    else none
  | [] => none

def ofText? (text : String) : Option Timestamp := do
  let (year, cs) ← year? text.toList
  let (month, cs) ← (mark? '-' cs).bind (field? 2)
  let (day, cs) ← (mark? '-' cs).bind (field? 2)
  let cs ← match cs with
    | c :: rest => if c = 'T' ∨ c = 't' ∨ c = ' ' then some rest else none
    | [] => none
  let (hour, cs) ← field? 2 cs
  let (minute, cs) ← (mark? ':' cs).bind (field? 2)
  let (second, cs) ← (mark? ':' cs).bind (field? 2)
  let (nanos, cs) ← fraction? cs
  let (offset, cs) ← offset? (Text.trimStart cs)
  if Text.trimStart cs ≠ [] then none
  else if year < minYear ∨ maxYear < year then none
  else
    let leap := second = 60
    let fields : TimeFields := ⟨⟨year, month, day⟩, hour, minute, if leap then 59 else second,
      if leap then nanos + 1000000000 else nanos⟩
    let t ← of? fields
    ofSeconds? (t.date.toDays * 86400 + (t.hour * 3600 + t.minute * 60 + t.second : Nat) - offset)
      t.nanos

end ChangeCapture.Timestamp
