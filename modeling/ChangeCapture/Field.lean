import ChangeCapture.Decimal.Fixed
import ChangeCapture.Decimal.Shortest
import ChangeCapture.Decimal.Wide
import ChangeCapture.Timestamp

/-! Decoded column values. -/
namespace ChangeCapture

inductive Field where
  /-- A number whose declared precision fits 32 bits. -/
  | int (value : Int)
  /-- A number whose declared precision fits 64 bits. -/
  | long (value : Int)
  | decimal (value : Decimal.Fixed)
  /-- A number beyond the digits of a fixed decimal. -/
  | bigDecimal (value : Decimal.Wide)
  | float (bits : UInt32)
  | double (bits : UInt64)
  | text (value : String)
  | binary (bytes : List UInt8)
  | timestamp (value : Timestamp)
  /-- Signed, as days and time or as years and months. -/
  | interval (value : String)
  | null
deriving DecidableEq, Repr

namespace Field

def floatText (bits : UInt32) : String :=
  Decimal.Binary.text .single (Decimal.Binary.ofBits .single bits.toNat)

def doubleText (bits : UInt64) : String :=
  Decimal.Binary.text .double (Decimal.Binary.ofBits .double bits.toNat)

def display : Field → String
  | int value => toString value
  | long value => toString value
  | decimal value => value.text
  | bigDecimal value => value.text
  | float bits => floatText bits
  | double bits => doubleText bits
  | text value => value
  | binary bytes => Text.hexOfBytes bytes
  | timestamp value => value.text
  | interval value => value
  | null => "NULL"

def isNull : Field → Bool
  | null => true
  | _ => false

end Field

end ChangeCapture
