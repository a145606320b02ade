import ChangeCapture.Column
import ChangeCapture.Image.Number
import ChangeCapture.Image.Temporal

/-! Column images: the bytes of a value, read as the column's type says. -/
namespace ChangeCapture.Image

/-- Floating point numbers are stored so that their bytes sort as they do: a positive number with its
sign bit set, a negative one with all bits flipped. -/
def sortedBits (width bits : Nat) : Nat :=
  let top := 2 ^ (width - 1)
  if top ≤ bits then bits - top else 2 ^ width - 1 - bits

def binaryFloat (bytes : List UInt8) : Except ImageFault Field :=
  if bytes.length = 4 then .ok (.float (UInt32.ofNat (sortedBits 32 (bigEndian bytes))))
  else .error (.length (.exactly 4) bytes.length)

def binaryDouble (bytes : List UInt8) : Except ImageFault Field :=
  if bytes.length = 8 then .ok (.double (UInt64.ofNat (sortedBits 64 (bigEndian bytes))))
  else .error (.length (.exactly 8) bytes.length)

def text (bytes : List UInt8) : Except ImageFault Field :=
  match Text.Utf8.decode bytes with
  | .ok text => .ok (.text text)
  | .error fault => .error (.utf8 fault)

/-- Text of the national character set. -/
def wideText (bytes : List UInt8) : Except ImageFault Field :=
  match Text.Utf16.decode bytes with
  | .ok text => .ok (.text text)
  | .error (.oddLength n) => .error (.length .even n)
  | .error (.unpaired unit) => .error (.utf16 unit)

/-- Declared precisions up to these fit 32 and 64 bits. -/
def intDigits : Int := 9
def longDigits : Int := 18

/-- The narrowest field that the declaration allows for. -/
def numberField (column : Column) (value : ExactNumber) : Except ImageFault Field :=
  if 0 < column.scale ∨ column.precision ≤ 0 ∨ longDigits < column.precision then .ok value.field
  else if !value.isInteger then .error (.notInteger value.text)
  else match value.long? with
    | none => .error .overflow
    | some long =>
      if column.precision ≤ intDigits then
        if -(2 ^ 31) ≤ long ∧ long < 2 ^ 31 then .ok (.int long) else .error .overflow
      else .ok (.long long)

def number (column : Column) (bytes : List UInt8) : Except ImageFault Field :=
  (ExactNumber.decode bytes).bind (numberField column)

def decode (column : Column) (bytes : List UInt8) : Except Failure Field :=
  let checked (result : Except ImageFault Field) : Except Failure Field :=
    match result with
    | .ok field => .ok field
    | .error fault => .error (.invalidValue column.name column.typeSpec fault)
  match column.dataType with
  | .number => checked (number column bytes)
  | .float => checked ((ExactNumber.decode bytes).map ExactNumber.field)
  | .binaryFloat => checked (binaryFloat bytes)
  | .binaryDouble => checked (binaryDouble bytes)
  | .char | .varchar | .clob => checked (text bytes)
  | .nchar | .nvarchar | .nclob => checked (wideText bytes)
  | .raw | .longRaw | .blob => .ok (.binary bytes)
  | .date => checked (date bytes)
  | .timestamp | .timestampLtz => checked (timestamp bytes)
  | .timestampTz => checked (timestampTz bytes)
  | .intervalDs => checked (intervalDayToSecond bytes)
  | .intervalYm => checked (intervalYearToMonth bytes)
  | .unknown => .error (.undescribedColumn column.id)
  | .unsupported name => .error (.unsupportedType column.name name)

end ChangeCapture.Image
