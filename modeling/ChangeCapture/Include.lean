import ChangeCapture.Failure
import ChangeCapture.Position
import ChangeCapture.Registry
import ChangeCapture.Source

/-! Where included files are found. -/
namespace ChangeCapture

/-- Anything that opens files. What it gives for a file does not change. -/
structure IncludeSource where
  /-- The content of a file, or the text of the failure to open it where that is known. -/
  opens : LogFile → Except (Option String) Source
  /-- How many files may be open within each other. -/
  depth : Nat

namespace IncludeSource

def find (s : IncludeSource) (file : LogFile) : Except Failure Source :=
  (s.opens file).mapError .input

/-- Files by their exact names. -/
def named (files : Registry String Source) : IncludeSource where
  opens file := (files.get? file.name).elim (.error (some file.name)) .ok
  depth := files.size

/-- The file that a path leads to. Steps that stay in the directory may come first. -/
def localName? (path : String) : Option String :=
  if path.startsWith "/" then none
  else match (path.splitOn "/").dropWhile (fun step => step = "." ∨ step = "") with
    | [name] => some name
    | _ => none

/-- Files in one directory, by paths that are relative to it. -/
def directory (files : Registry String Source) : IncludeSource where
  opens file :=
    if file.name.contains '\x00' then
      .error (some "file name contained an unexpected NUL byte")
    else ((localName? file.name).bind files.get?).elim (.error none) .ok
  depth := files.size

end IncludeSource

end ChangeCapture
