import BlockContainer.Error
import BlockContainer.Varint

/-! # Input streams

A stream has a position in its content and a flag for a read that came up short or a
seek that could not be done. Once the flag is up every read finds nothing and the
position is not told, until the flag is cleared.

Streams differ in what they can seek: a string in memory only within its content, an
opened file to any offset below 2^63, a pipe not at all.

A file can be given another content while it is read. The stream takes bytes from it in
portions, so the old content is read to the end of the portion that was taken last, and the
new one from there. A seek forgets the portion.
-/
namespace BlockContainer

inductive StreamKind where
  | memory | file | pipe
deriving DecidableEq, Repr

structure InputStream where
  kind : StreamKind
  content : Bytes
  position : Nat
  /-- What can be read from the position on. -/
  rest : Bytes
  /-- How much of the rest has been taken from the content already. -/
  taken : Nat := 0
  failed : Bool
  taken_le : taken ≤ rest.length
  rest_drop : rest.drop taken = content.drop (position + taken)

namespace InputStream

def ofBytes (kind : StreamKind) (content : Bytes) : InputStream where
  kind
  content
  position := 0
  rest := content
  failed := false
  taken_le := Nat.zero_le _
  rest_drop := rfl

instance : Inhabited InputStream := ⟨ofBytes .memory []⟩

/-- The bytes that reads can still deliver. -/
def available (s : InputStream) : Bytes := if s.failed then [] else s.rest

def tell? (s : InputStream) : Option Nat :=
  if s.failed || s.kind == .pipe then none else some s.position

def peek? (s : InputStream) : Option UInt8 := s.available.head?

/-- The size of a portion. Longer reads take what they need without one. -/
def portionSize : Nat := 8191

/-- How much will have been taken from the content behind a read of `n` bytes. -/
def takenBehind (s : InputStream) (n : Nat) : Nat :=
  if n ≤ s.taken then s.taken - n
  else if portionSize < n then 0
  else ((s.rest.drop s.taken).take portionSize).length - (n - s.taken)

theorem taken_le_takenBehind (s : InputStream) (n : Nat) : s.taken ≤ n + s.takenBehind n := by
  unfold takenBehind
  split
  · omega
  · split <;> omega

theorem takenBehind_le (s : InputStream) (n : Nat) : s.takenBehind n ≤ (s.rest.drop n).length := by
  have := s.taken_le
  simp only [takenBehind, List.length_drop, List.length_take]
  split
  · omega
  · split <;> omega

def move (s : InputStream) (n : Nat) : InputStream where
  kind := s.kind
  content := s.content
  position := s.position + n
  rest := s.rest.drop n
  taken := s.takenBehind n
  failed := s.failed
  taken_le := s.takenBehind_le n
  rest_drop := by
    obtain ⟨k, hk⟩ := Nat.exists_eq_add_of_le (s.taken_le_takenBehind n)
    rw [List.drop_drop, Nat.add_assoc, hk, ← List.drop_drop, s.rest_drop, List.drop_drop,
      Nat.add_assoc]

def fail (s : InputStream) : InputStream := { s with failed := true }

def clear (s : InputStream) : InputStream := { s with failed := false }

/-- Up to `n` bytes. Fewer are found only at the end, and then the stream has failed. -/
def read (n : Nat) (s : InputStream) : Bytes × InputStream :=
  let found := s.available.take n
  let moved := s.move found.length
  (found, if found.length < n then moved.fail else moved)

def canSeek (s : InputStream) (target : Nat) : Bool :=
  match s.kind with
  | .memory => target ≤ s.content.length
  | .file => target < 9223372036854775808
  | .pipe => false

/-- Moves to an offset of the content. A failed stream stays where it is. -/
def seek (target : Nat) (s : InputStream) : InputStream :=
  if s.failed then s
  else if s.canSeek target then
    { s with
      position := target
      rest := s.content.drop target
      taken := 0
      taken_le := Nat.zero_le _
      rest_drop := rfl }
  else s.fail

def rewritten (content : Bytes) (s : InputStream) : InputStream where
  kind := s.kind
  content
  position := s.position
  rest := s.rest.take s.taken ++ content.drop (s.position + s.taken)
  taken := s.taken
  failed := s.failed
  taken_le := by
    have := s.taken_le
    simp only [List.length_append, List.length_take]
    omega
  rest_drop := List.drop_left' (List.length_take_of_le s.taken_le)

end InputStream

/-- A read from a stream, with what a failed one leaves behind. -/
abbrev Reading (α : Type) := EStateM FormatError InputStream α

namespace InputStream

def readExactly (n : Nat) (otherwise : FormatError) : Reading Bytes := fun s =>
  let (found, s') := s.read n
  if found.length = n then .ok found s' else .error otherwise s'

def readLong : Reading Int64 := fun s =>
  match Varint.scan s.available with
  | .complete word n => .ok (ZigZag.decode word) (s.move n)
  | .truncated n => .error .streamEndInVarint (s.move n).fail
  | .overlong => .error .varintTooLong (s.move Varint.maxBytes)

/-- The most of a string that is read at once. A length that promises too much fails at the
end of the stream, before there is room made for it. -/
def chunkSize : Nat := 65536

def readChunks (otherwise : FormatError) (n : Nat) : Reading Bytes :=
  if n = 0 then pure []
  else do
    let chunk ← readExactly (min n chunkSize) otherwise
    let rest ← readChunks otherwise (n - chunkSize)
    return chunk ++ rest
termination_by n
decreasing_by
  have : 0 < chunkSize := by decide
  omega

def readString : Reading Bytes := do
  let length ← readLong
  if length.toInt < 0 then throw (.negativeLength length)
  else readChunks (.streamEndInString length.toInt.toNat) length.toInt.toNat

end InputStream
end BlockContainer
