import ChangeCapture.Text.Blank

/-! The types a column may be declared with. -/
namespace ChangeCapture

inductive DataType where
  | number
  | float
  | binaryFloat
  | binaryDouble
  | char
  | varchar
  | nchar
  | nvarchar
  | raw
  | longRaw
  | clob
  | nclob
  | blob
  | date
  | timestamp
  | timestampTz
  | timestampLtz
  | intervalDs
  | intervalYm
  /-- The type of a column that nothing has described yet. -/
  | unknown
  | unsupported (name : String)
deriving DecidableEq, Repr

namespace DataType

def name : DataType → String
  | number => "NUMBER"
  | float => "FLOAT"
  | binaryFloat => "BINARY_FLOAT"
  | binaryDouble => "BINARY_DOUBLE"
  | char => "CHAR"
  | varchar => "VARCHAR2"
  | nchar => "NCHAR"
  | nvarchar => "NVARCHAR2"
  | raw => "RAW"
  | longRaw => "LONG RAW"
  | clob => "CLOB"
  | nclob => "NCLOB"
  | blob => "BLOB"
  | date => "DATE"
  | timestamp => "TIMESTAMP"
  | timestampTz => "TIMESTAMP WITH TIME ZONE"
  | timestampLtz => "TIMESTAMP WITH LOCAL TIME ZONE"
  | intervalDs => "INTERVAL DAY TO SECOND"
  | intervalYm => "INTERVAL YEAR TO MONTH"
  | unknown => "UNKNOWN"
  | unsupported name => name

/-- The types by their names in capitals; some have several. -/
def named : List (String × DataType) :=
  [("NUMBER", number), ("INTEGER", number), ("INT", number), ("SMALLINT", number),
   ("DECIMAL", number), ("NUMERIC", number), ("FLOAT", float), ("BINARY_FLOAT", binaryFloat),
   ("BINARY_DOUBLE", binaryDouble), ("CHAR", char), ("VARCHAR2", varchar), ("VARCHAR", varchar),
   ("LONG", varchar), ("NCHAR", nchar), ("NVARCHAR2", nvarchar), ("RAW", raw),
   ("LONG RAW", longRaw), ("CLOB", clob), ("NCLOB", nclob), ("BLOB", blob), ("DATE", date),
   ("TIMESTAMP", timestamp), ("TIMESTAMP WITH TIME ZONE", timestampTz),
   ("TIMESTAMP WITH LOCAL TIME ZONE", timestampLtz), ("INTERVAL DAY TO SECOND", intervalDs),
   ("INTERVAL YEAR TO MONTH", intervalYm)]

/-- A name without sizes, in any case of its ASCII letters and with blanks around it. -/
def ofName (text : String) : DataType :=
  let name := String.ofList ((Text.trim text.toList).map Char.toUpper)
  (named.lookup name).getD (unsupported name)

/-- Large objects, which may be stored apart from their row. -/
def isLob (t : DataType) : Bool := t = clob || t = nclob || t = blob

/-- Text of the national character set. -/
def isWide (t : DataType) : Bool := t = nchar || t = nvarchar || t = nclob

end DataType

end ChangeCapture
