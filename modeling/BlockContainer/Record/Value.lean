import BlockContainer.Decoder
import BlockContainer.Encoder
import BlockContainer.Number.Decimal

/-! # Field values

A value is one of the eight primitive kinds. Floating point values are bits; they are
compared as numbers, so equality of values is neither equality of bits nor reflexive.
-/
namespace BlockContainer

inductive Value where
  | null
  | boolean (b : Bool)
  | int (n : Int32)
  | long (n : Int64)
  | float (bits : UInt32)
  | double (bits : UInt64)
  | bytes (b : Bytes)
  | string (b : Bytes)
deriving DecidableEq, Repr

namespace Value

def type : Value → FieldType
  | null => .null
  | boolean _ => .boolean
  | int _ => .int
  | long _ => .long
  | float _ => .float
  | double _ => .double
  | bytes _ => .bytes
  | string _ => .string

def ofType : FieldType → Value
  | .null => null
  | .boolean => boolean false
  | .int => int 0
  | .long => long 0
  | .float => float 0
  | .double => double 0
  | .bytes => bytes []
  | .string => string []

def equal : Value → Value → Bool
  | float a, float b =>
      (BinaryFormat.single.decode a.toNat).equal (BinaryFormat.single.decode b.toNat)
  | double a, double b =>
      (BinaryFormat.double.decode a.toNat).equal (BinaryFormat.double.decode b.toNat)
  | a, b => a == b

def encode : Value → Bytes
  | null => []
  | boolean b => Encode.boolean b
  | int n => Encode.int n
  | long n => Encode.long n
  | float bits => Encode.float bits
  | double bits => Encode.double bits
  | bytes b => Encode.bytes b
  | string b => Encode.bytes b

def decode : FieldType → Decoding Value
  | .null => pure null
  | .boolean => do return boolean (← Decoder.readBoolean)
  | .int => do return int (← Decoder.readInt)
  | .long => do return long (← Decoder.readLong)
  | .float => do return float (← Decoder.readFloat)
  | .double => do return double (← Decoder.readDouble)
  | .bytes => do return bytes (← Decoder.readBytes)
  | .string => do return string (← Decoder.readBytes)

def quoted (b : Bytes) : Bytes := "\"" ++ b ++ "\""

/-- Bytes are written as hexadecimal escapes, strings as they are. -/
def text : Value → Bytes
  | null => "null"
  | boolean b => if b then "true" else "false"
  | int n => Bytes.ofString (toString n.toInt)
  | long n => Bytes.ofString (toString n.toInt)
  | float bits => Decimal.ofBinary (BinaryFormat.single.decode bits.toNat)
  | double bits => Decimal.ofBinary (BinaryFormat.double.decode bits.toNat)
  | bytes b => quoted (b.flatMap fun x => "\\x" ++ Bytes.byteHex x)
  | string b => quoted b

end Value
end BlockContainer
