import BlockContainer.Focus
import BlockContainer.Header.Basic
import BlockContainer.Output
import BlockContainer.Stream.Consumption

/-! # Blocks

A block is a count of records, the length of a payload, the payload and the marker of the
file. Reading it takes two steps: the framing, which is refused when it is negative or
announces more than is left of the file, and the body with its marker.
-/
namespace BlockContainer

structure Block where
  recordCount : Int64 := 0
  payload : Bytes := []
deriving DecidableEq, Repr

namespace Block

instance : Inhabited Block := ⟨{}⟩

structure Framing where
  offset : Nat
  count : Int64
  length : Nat
deriving DecidableEq, Repr

/-- Reads the framing of a block of which, with its framing, `remaining` bytes are left. -/
def readFraming (remaining : Nat) : Reading Framing := do
  let offset := (← get).position
  let count ← InputStream.readLong
  let length ← InputStream.readLong
  ensure (0 ≤ count.toInt ∧ 0 ≤ length.toInt) (.blockFraming offset count length)
  let framing := (← get).position - offset
  let length := length.toInt.toNat
  ensure (framing ≤ remaining ∧ length ≤ remaining - framing)
    (.blockTooLong offset length (remaining - framing))
  return { offset, count, length }

def readBody (marker : SyncMarker) (framing : Framing) : Reading Bytes := do
  let payload ← InputStream.readExactly framing.length (.blockPayloadShort framing.offset)
  let found ← InputStream.readExactly SyncMarker.size (.blockMarkerMissing framing.offset)
  ensure (found = marker.bytes) (.blockMarkerMismatch framing.offset found marker.bytes)
  return payload

theorem consumes_readFraming (remaining : Nat) :
    Consumes InputStream.left 2 (readFraming remaining) := by
  refine Consumes.bind (j := 0) (k := 2) Consumes.get fun _ => ?_
  refine Consumes.bind (j := 1) (k := 1) InputStream.consumes_readLong fun _ => ?_
  refine Consumes.bind (j := 1) (k := 0) InputStream.consumes_readLong fun _ => ?_
  refine Consumes.bindZero (k := 0) (Consumes.ensure _ _) fun _ => ?_
  refine Consumes.bindZero (k := 0) Consumes.get fun _ => ?_
  exact Consumes.bindZero (Consumes.ensure _ _) fun _ => Consumes.pure _

theorem consumes_readBody (marker : SyncMarker) (framing : Framing) :
    Consumes InputStream.left 0 (readBody marker framing) := by
  refine Consumes.bindZero (k := 0) (InputStream.consumes_readExactly _ _) fun _ => ?_
  refine Consumes.bindZero (k := 0) (InputStream.consumes_readExactly _ _) fun _ => ?_
  exact Consumes.bindZero (Consumes.ensure _ _) fun _ => Consumes.pure _

def read (remaining : Nat) (marker : SyncMarker) : Reading (Block × Nat) := do
  let framing ← readFraming remaining
  let payload ← readBody marker framing
  let stop := (← get).position
  return ({ recordCount := framing.count, payload }, stop - framing.offset)

def pieces (b : Block) (marker : SyncMarker) : List Piece :=
  Piece.long b.recordCount ++ Piece.string b.payload ++ [.run marker.bytes]

def toBytes (b : Block) (marker : SyncMarker) : Bytes := (b.pieces marker).flatMap Piece.bytes

def write (b : Block) (marker : SyncMarker) : EStateM Error OutputStream Nat :=
  OutputStream.writeAll (b.pieces marker)

end Block
end BlockContainer
