import BlockContainer.Bytes

/-! # Weighted trees in a heap

Trees of symbols wait in a binary heap with a lightest one on top; of equally light trees
the lower one goes first. The trees below place `k` of the heap begin at the places
`2 * k + 1` and `2 * k + 2`.
-/
namespace BlockContainer.Deflate

inductive SymbolTree where
  | leaf (symbol : Nat)
  | node (first second : SymbolTree)
deriving DecidableEq, Repr

structure WeightedTree where
  weight : Nat
  height : Nat
  tree : SymbolTree
deriving DecidableEq, Repr

namespace WeightedTree

def ofSymbol (symbol weight : Nat) : WeightedTree := ⟨weight, 0, .leaf symbol⟩

def join (a b : WeightedTree) : WeightedTree where
  weight := a.weight + b.weight
  height := max a.height b.height + 1
  tree := .node a.tree b.tree

def goesBefore (a b : WeightedTree) : Bool :=
  a.weight < b.weight || a.weight == b.weight && a.height ≤ b.height

end WeightedTree

abbrev Heap := Array WeightedTree

namespace Heap

/-- The left one of the two places below, unless the tree on the right goes before. -/
def placeBelow (h : Heap) (place : Nat) : Nat :=
  match h[2 * place + 1]?, h[2 * place + 2]? with
  | some left, some right => if right.goesBefore left then 2 * place + 2 else 2 * place + 1
  | _, _ => 2 * place + 1

theorem lt_placeBelow (h : Heap) (place : Nat) : place < placeBelow h place := by
  unfold placeBelow
  split
  · split <;> omega
  · omega

def settle (h : Heap) (place : Nat) (t : WeightedTree) : Heap :=
  match _ : h[placeBelow h place]? with
  | none => h.setIfInBounds place t
  | some below =>
    if t.goesBefore below then h.setIfInBounds place t
    else settle (h.setIfInBounds place below) (placeBelow h place) t
termination_by h.size - place
decreasing_by
  have := lt_placeBelow h place
  have := (Array.getElem?_eq_some_iff.1 ‹_›).1
  simp only [Array.size_setIfInBounds]
  omega

/-- Orders trees as a heap, from the last ones that have others below on. -/
def ofTrees (trees : List WeightedTree) : Heap :=
  (List.range (trees.length / 2)).reverse.foldl
    (fun h place => match h[place]? with
      | some t => settle h place t
      | none => h)
    trees.toArray

theorem size_settle (h : Heap) (place : Nat) (t : WeightedTree) :
    (settle h place t).size = h.size := by
  fun_induction settle h place t with
  | case1 => simp
  | case2 => simp
  | case3 _ _ _ _ _ ih => simpa using ih

end Heap
end BlockContainer.Deflate
