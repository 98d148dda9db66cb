/-! # Byte strings

Names, texts and file contents are byte strings: nothing in a container promises
that they are valid in any character encoding. A string literal of this library
stands for its bytes, one byte a character.
-/
namespace BlockContainer

abbrev Bytes := List UInt8

namespace Bytes

/-- One byte for each character below U+0100. -/
def ofString (s : String) : Bytes := s.toList.map Char.toUInt8

instance : Coe String Bytes := ⟨ofString⟩

def decimal (n : Nat) : Bytes := ofString (toString n)

def hexDigit (n : Nat) : UInt8 :=
  if n < 10 then UInt8.ofNat (48 + n) else UInt8.ofNat (87 + n)

def byteHex (b : UInt8) : Bytes := [hexDigit (b.toNat / 16), hexDigit (b.toNat % 16)]

def hex (b : Bytes) : Bytes := b.flatMap byteHex

def ofLittleEndian : (width n : Nat) → Bytes
  | 0, _ => []
  | width + 1, n => UInt8.ofNat n :: ofLittleEndian width (n / 256)

def toLittleEndian (b : Bytes) : Nat := b.foldr (fun x n => x.toNat + 256 * n) 0

def intercalate (separator : Bytes) (pieces : List Bytes) : Bytes :=
  List.intercalate separator pieces

end Bytes
end BlockContainer
