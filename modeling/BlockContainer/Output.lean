import BlockContainer.Encoder
import BlockContainer.Error

/-! # Output streams

What is written arrives in pieces, single bytes and runs of bytes. A device with room
takes every piece. A full device takes none, but the stream holds small pieces back in a
buffer first, so that the failure shows when a piece is long, when one does not fit into
the buffer any more, or on closing. A stream that has failed fails on every later piece.
-/
namespace BlockContainer

inductive Piece where
  | byte (b : UInt8)
  | run (b : Bytes)
deriving DecidableEq, Repr

namespace Piece

def bytes : Piece → Bytes
  | byte b => [b]
  | run b => b

def long (n : Int64) : List Piece := (Encode.long n).map byte

def string (b : Bytes) : List Piece := long (Int64.ofInt b.length) ++ [run b]

end Piece

structure OutputStream where
  full : Bool
  accepted : Bytes := []
  failed : Bool := false
deriving DecidableEq

namespace OutputStream

def bufferSize : Nat := 8191

def longRun : Nat := 1024

def position (s : OutputStream) : Nat := s.accepted.length

/-- Whether a piece is held back by a stream that has delivered nothing yet. A long run
and one that would fill the buffer go to the device at once. -/
def holdsBack (s : OutputStream) : Piece → Bool
  | .byte _ => s.position < bufferSize
  | .run b => b.isEmpty || (b.length < longRun && s.position + b.length < bufferSize)

def write (p : Piece) : EStateM Error OutputStream Unit := fun s =>
  if s.failed || (s.full && !s.holdsBack p) then .error .writeFailed { s with failed := true }
  else .ok () { s with accepted := s.accepted ++ p.bytes }

def writeAll (pieces : List Piece) : EStateM Error OutputStream Nat := do
  let start := (← get).position
  pieces.forM write
  return (← get).position - start

/-- Whether closing delivers what the buffer holds. -/
def closes (s : OutputStream) : Bool := !s.full || s.accepted.isEmpty

end OutputStream
end BlockContainer
