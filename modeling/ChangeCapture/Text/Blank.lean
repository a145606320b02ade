/-! White space as Unicode has it, and the words between. -/
namespace ChangeCapture.Text

/-- The ranges of the property White_Space, ends included. -/
def blankRanges : List (Nat × Nat) :=
  [(0x09, 0x0D), (0x20, 0x20), (0x85, 0x85), (0xA0, 0xA0), (0x1680, 0x1680), (0x2000, 0x200A),
   (0x2028, 0x2029), (0x202F, 0x202F), (0x205F, 0x205F), (0x3000, 0x3000)]

def isBlank (c : Char) : Bool := blankRanges.any (fun r => r.1 ≤ c.toNat && c.toNat ≤ r.2)

def trimStart (cs : List Char) : List Char := cs.dropWhile isBlank
def trim (cs : List Char) : List Char := (trimStart (trimStart cs).reverse).reverse

/-- The word at the front, possibly empty, and the words after it. -/
def wordsFrom : List Char → List Char × List (List Char)
  | [] => ([], [])
  | c :: cs =>
    let (word, more) := wordsFrom cs
    if isBlank c then ([], if word.isEmpty then more else word :: more) else (c :: word, more)

def words (cs : List Char) : List (List Char) :=
  let (word, more) := wordsFrom cs
  if word.isEmpty then more else word :: more

/-- Words with one space between them. -/
def squeeze (cs : List Char) : List Char := [' '].intercalate (words cs)

end ChangeCapture.Text
