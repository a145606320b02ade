import ChangeCapture.Position

/-! Oddities that are passed over, but said. -/
namespace ChangeCapture

inductive Warning where
  | unknownEntry (major subtype offset : Nat) (file : LogFile)
  | unknownColumn (ordinal : Nat) (table : String) (columns : Nat)
  | keyFromImages (table : String) (ordinals : List Nat)
  | rowCount (announced decoded : Nat)
  | statsWithoutFile (offset : Nat) (file : LogFile)
deriving DecidableEq, Repr

def Warning.message : Warning → String
  | unknownEntry major subtype offset file =>
    s!"Skipping entry of unknown type {major}.{subtype} at {offset} in {file.text}"
  | unknownColumn ordinal table columns =>
    s!"Column {ordinal} of {table} is not in the dictionary ({columns} columns), skipping"
  | keyFromImages table ordinals =>
    let list := "[" ++ ", ".intercalate (ordinals.map toString) ++ "]"
    s!"Schema of {table} has no key flags, using supplemental key columns {list} as key"
  | rowCount announced decoded =>
    s!"Included file announced {announced} rows, {decoded} data records were decoded"
  | statsWithoutFile offset file =>
    s!"Include statistics at {offset} in {file.text} follow no included file"

end ChangeCapture
