import BlockContainer.Bytes

/-! # Tokens

Compressed data is a sequence of tokens: a literal byte, or a copy of bytes that were
written a given distance ago. A copy may reach into what it writes itself.

The symbols of the two alphabets stand for ranges of lengths and distances. A range is
given by its first member and the width of the number behind its symbol that selects one.
-/
namespace BlockContainer.Deflate

inductive Token where
  | literal (b : UInt8)
  | copy (length distance : Nat)
deriving DecidableEq, Repr

namespace Token

def copyBack (distance : Nat) : Nat → Array UInt8 → Array UInt8
  | 0, out => out
  | n + 1, out => copyBack distance n (out.push (out.getD (out.size - distance) 0))

def reaches (size : Nat) : Token → Bool
  | literal _ => true
  | copy _ distance => distance ≤ size

def write (out : Array UInt8) : Token → Array UInt8
  | literal b => out.push b
  | copy length distance => copyBack distance length out

def length : Token → Nat
  | literal _ => 1
  | copy length _ => length

end Token

/-- The numbers from `first` on that `width` bits can select. -/
structure SymbolRange where
  first : Nat
  width : Nat
deriving DecidableEq, Repr

namespace SymbolRange

def consecutive (first : Nat) : List Nat → List SymbolRange
  | [] => []
  | width :: rest => ⟨first, width⟩ :: consecutive (first + Nat.pow 2 width) rest

/-- Ranges of copy lengths, for the symbols from 257 on. The longest has its own symbol. -/
def lengths : Array SymbolRange :=
  (consecutive 3
    [0, 0, 0, 0, 0, 0, 0, 0, 1, 1, 1, 1, 2, 2, 2, 2, 3, 3, 3, 3, 4, 4, 4, 4, 5, 5, 5, 5]).toArray.push
    ⟨258, 0⟩

def distances : Array SymbolRange :=
  (consecutive 1
    [0, 0, 0, 0, 1, 1, 2, 2, 3, 3, 4, 4, 5, 5, 6, 6, 7, 7, 8, 8, 9, 9, 10, 10, 11, 11, 12, 12, 13,
      13]).toArray

def indexOf (ranges : Array SymbolRange) (n : Nat) : Nat :=
  (ranges.toList.takeWhile fun r => r.first ≤ n).length - 1

end SymbolRange

def endOfBlock : Nat := 256

def firstLengthSymbol : Nat := 257

namespace FixedCode

def literalLengths : List Nat :=
  List.replicate 144 8 ++ List.replicate 112 9 ++ List.replicate 24 7 ++ List.replicate 8 8

def distanceLengths : List Nat := List.replicate 32 5

end FixedCode

def declarationOrder : List Nat := [16, 17, 18, 0, 8, 7, 9, 6, 10, 5, 11, 4, 12, 3, 13, 2, 14, 1, 15]

end BlockContainer.Deflate
