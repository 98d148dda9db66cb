import BlockContainer.Deflate.Bits

/-! # Prefix codes

A prefix code is a binary tree with symbols at its leaves. It is given by the lengths of
its words alone: among the words, shorter ones come first and words of one length follow
the order of their symbols. Growing the tree depth first, zero before one, places the
symbols in just that order.
-/
namespace BlockContainer.Deflate

inductive CodeTree where
  | unused
  | leaf (symbol : Nat)
  | node (zero one : CodeTree)
deriving DecidableEq, Repr

/-- A code of which every word has at least one bit. -/
structure PrefixCode where
  zero : CodeTree
  one : CodeTree
deriving DecidableEq, Repr

namespace CodeTree

def symbol : CodeTree → Inflating Nat
  | unused => throw .corrupt
  | leaf s => pure s
  | node zero one => do if ← bit then one.symbol else zero.symbol

/-- The tree below a word of `depth` bits, and the symbols that are left over. The
symbols come with their lengths, in order; `room` bits may still be added to a word. -/
def grow : (room depth : Nat) → List (Nat × Nat) → CodeTree × List (Nat × Nat)
  | _, _, [] => (unused, [])
  | 0, depth, (length, s) :: rest =>
    if length = depth then (leaf s, rest) else (unused, (length, s) :: rest)
  | room + 1, depth, (length, s) :: rest =>
    if length = depth then (leaf s, rest)
    else
      let (zero, left) := grow room (depth + 1) ((length, s) :: rest)
      let (one, left) := grow room (depth + 1) left
      (node zero one, left)

def isFull : CodeTree → Bool
  | unused => false
  | leaf _ => true
  | node zero one => zero.isFull && one.isFull

def words (word : List Bool) : CodeTree → List (Nat × List Bool)
  | unused => []
  | leaf s => [(s, word.reverse)]
  | node zero one => zero.words (false :: word) ++ one.words (true :: word)

theorem consumes_symbol (t : CodeTree) : Consumes BitSource.left 0 t.symbol := by
  induction t with
  | unused => exact Consumes.throw _
  | leaf s => exact Consumes.pure s
  | node zero one hzero hone =>
    refine (Consumes.bind (k := 0) consumes_bit fun b => ?_).of_le (Nat.zero_le _)
    cases b
    · exact hzero
    · exact hone

end CodeTree

namespace PrefixCode

def maxLength : Nat := 15

def order (lengths : List Nat) : List (Nat × Nat) :=
  (lengths.zipIdx.filter fun p => p.1 != 0).mergeSort fun p q => p.1 ≤ q.1

def void : PrefixCode := ⟨.unused, .unused⟩

def ofLengths? (lengths : List Nat) : Option PrefixCode :=
  let (zero, left) := CodeTree.grow (maxLength - 1) 1 (order lengths)
  let (one, left) := CodeTree.grow (maxLength - 1) 1 left
  if left.isEmpty then some ⟨zero, one⟩ else none

def isFull (c : PrefixCode) : Bool := c.zero.isFull && c.one.isFull

def symbol (c : PrefixCode) : Inflating Nat := do
  if ← bit then c.one.symbol else c.zero.symbol

def words (c : PrefixCode) : List (Nat × List Bool) :=
  c.zero.words [false] ++ c.one.words [true]

/-- The words by symbol; symbols without one have the empty word. -/
def wordTable (c : PrefixCode) (size : Nat) : Array (List Bool) :=
  c.words.foldl (fun t w => t.setIfInBounds w.1 w.2) (Array.replicate size [])

theorem consumes_symbol (c : PrefixCode) : Consumes BitSource.left 1 c.symbol := by
  refine Consumes.bind (k := 0) consumes_bit fun b => ?_
  cases b
  · exact c.zero.consumes_symbol
  · exact c.one.consumes_symbol

end PrefixCode
end BlockContainer.Deflate
