import BlockContainer.Varint

/-! # Writing values

Each kind of value has one written form; `Encoder` collects written values in a
growing buffer.
-/
namespace BlockContainer

namespace Encode

def long (n : Int64) : Bytes := Varint.encode n
def int (n : Int32) : Bytes := long (Int64.ofInt n.toInt)
def boolean (b : Bool) : Bytes := [if b then 1 else 0]
def float (bits : UInt32) : Bytes := Bytes.ofLittleEndian 4 bits.toNat
def double (bits : UInt64) : Bytes := Bytes.ofLittleEndian 8 bits.toNat

def bytes (b : Bytes) : Bytes := long (Int64.ofInt b.length) ++ b

end Encode

structure Encoder where
  buffer : Array UInt8 := #[]
deriving DecidableEq

namespace Encoder

def size (e : Encoder) : Nat := e.buffer.size

def toBytes (e : Encoder) : Bytes := e.buffer.toList

def append (e : Encoder) (b : Bytes) : Encoder := ⟨e.buffer ++ b⟩

@[simp] theorem toBytes_append (e : Encoder) (b : Bytes) :
    (e.append b).toBytes = e.toBytes ++ b := by
  simp [append, toBytes]

end Encoder
end BlockContainer
