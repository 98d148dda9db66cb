import BlockContainer.Header.Basic
import BlockContainer.Output

/-! # Writing a header

The metadata go out as one block of the map, in the byte order of their keys, or as no
block when there are none; the empty block and the marker follow.
-/
namespace BlockContainer.Header

def entryPieces (e : Bytes × Bytes) : List Piece := Piece.string e.1 ++ Piece.string e.2

def mapPieces (m : Metadata) : List Piece :=
  if m.entries.isEmpty then []
  else Piece.long (Int64.ofInt m.size) ++ m.entries.flatMap entryPieces

def pieces (h : Header) : List Piece :=
  .run (magic ++ [version]) :: mapPieces h.metadata ++ Piece.long 0 ++ [.run h.marker.bytes]

def toBytes (h : Header) : Bytes := h.pieces.flatMap Piece.bytes

def write (h : Header) : EStateM Error OutputStream Header := do
  let size ← OutputStream.writeAll h.pieces
  return { h with size }

end BlockContainer.Header
