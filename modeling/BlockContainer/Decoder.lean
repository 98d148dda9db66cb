import BlockContainer.Error
import BlockContainer.Varint

/-! # Reading values from a buffer

A decoder walks over a byte string that is wholly in memory. A read that fails may
still have moved the decoder: an integer that runs off the end has consumed the bytes
it saw, and a length prefix is gone once it has been read.
-/
namespace BlockContainer

structure Decoder where
  buffer : Bytes
  position : Nat
  rest : Bytes
  rest_eq : rest = buffer.drop position
deriving DecidableEq

namespace Decoder

def ofBytes (buffer : Bytes) : Decoder where
  buffer
  position := 0
  rest := buffer
  rest_eq := rfl

instance : Inhabited Decoder := ⟨ofBytes []⟩

def size (d : Decoder) : Nat := d.buffer.length

def remaining (d : Decoder) : Nat := d.rest.length

def move (d : Decoder) (n : Nat) : Decoder where
  buffer := d.buffer
  position := d.position + n
  rest := d.rest.drop n
  rest_eq := by rw [d.rest_eq, List.drop_drop]

end Decoder

/-- A read from a decoder, with what a failed one leaves behind. -/
abbrev Decoding (α : Type) := EStateM FormatError Decoder α

namespace Decoder

def take (n : Nat) : Decoding Bytes := fun d =>
  let found := d.rest.take n
  if found.length = n then .ok found (d.move n)
  else .error (.bufferEnd n d.position d.size) d

def skip (n : Nat) : Decoding Unit := do
  let _ ← take n

def readLong : Decoding Int64 := fun d =>
  match Varint.scan d.rest with
  | .complete word n => .ok (ZigZag.decode word) (d.move n)
  | .truncated n => .error (.bufferEnd 1 (d.position + n) d.size) (d.move n)
  | .overlong => .error .varintTooLong (d.move Varint.maxBytes)

def readInt : Decoding Int32 := do
  let n ← readLong
  if Int32.minValue.toInt ≤ n.toInt ∧ n.toInt ≤ Int32.maxValue.toInt then
    pure (Int32.ofInt n.toInt)
  else throw .intOutOfRange

def readBoolean : Decoding Bool := do
  let b ← take 1
  pure (b != [0])

def readFloat : Decoding UInt32 := do
  let b ← take 4
  pure (UInt32.ofNat (Bytes.toLittleEndian b))

def readDouble : Decoding UInt64 := do
  let b ← take 8
  pure (UInt64.ofNat (Bytes.toLittleEndian b))

def readBytes : Decoding Bytes := do
  let length ← readLong
  if length.toInt < 0 then throw (.negativeLength length)
  else take length.toInt.toNat

end Decoder
end BlockContainer
