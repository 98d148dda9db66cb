import BlockContainer.Deflate.Heap

/-! # Word lengths of a prefix code

Given how often each symbol occurs, the two lightest trees of symbols are joined until one
tree is left, and a word is as long as its symbol is deep. Where that is too long, symbols
are moved to other depths: for two places too deep, the deepest symbol that is not at the
limit goes one level down and takes one of them along. The symbols that were joined first
then get the longest words.
-/
namespace BlockContainer.Deflate

namespace SymbolTree

def depths (depth : Nat) : SymbolTree → List (Nat × Nat)
  | leaf symbol => [(symbol, depth)]
  | node first second => first.depths (depth + 1) ++ second.depths (depth + 1)

def countBelow (limit depth : Nat) : SymbolTree → Nat
  | leaf _ => if limit < depth then 1 else 0
  | node first second =>
    (if limit < depth then 1 else 0) + first.countBelow limit (depth + 1) +
      second.countBelow limit (depth + 1)

def symbol? : SymbolTree → Option Nat
  | leaf symbol => some symbol
  | node _ _ => none

end SymbolTree

namespace Heap

/-- Joins all trees into one. Returns it with the trees that were joined, the last first. -/
def joinAll (h : Heap) (joined : List SymbolTree) : Option SymbolTree × List SymbolTree :=
  match h[0]? with
  | none => (none, joined)
  | some first =>
    if 1 < h.size then
      let rest := settle h.pop 0 (h.back?.getD first)
      let second := rest.getD 0 first
      joinAll (settle rest 0 (first.join second)) (second.tree :: first.tree :: joined)
    else (some first.tree, joined)
termination_by h.size
decreasing_by
  simp only [size_settle, Array.size_pop]
  omega

end Heap

abbrev LengthCounts := Array Nat

namespace LengthCounts

def ofDepths (limit : Nat) (depths : List (Nat × Nat)) : LengthCounts :=
  depths.foldl (fun c d => c.modify (min limit d.2) (· + 1)) (Array.replicate (limit + 1) 0)

def greatestBelow (c : LengthCounts) : (limit : Nat) → Nat
  | 0 => 0
  | length + 1 => if c.getD length 0 ≠ 0 then length else greatestBelow c length

/-- Lets a word of less than the limit grow to make room for one at the limit. -/
def makeRoom (limit : Nat) (c : LengthCounts) : LengthCounts :=
  let length := c.greatestBelow limit
  ((c.modify length (· - 1)).modify (length + 1) (· + 2)).modify limit (· - 1)

def lengths (c : LengthCounts) : List Nat :=
  c.toList.zipIdx.reverse.flatMap fun p => List.replicate p.1 p.2

end LengthCounts

/-- Counts with at least two of them positive, so that every code is full. -/
def atLeastTwo (counts : List Nat) : List Nat :=
  let used := (counts.zipIdx.filter fun p => p.1 != 0).map Prod.snd
  match used with
  | [] => (counts.set 0 1).set 1 1
  | [s] => counts.set (if s < 2 then s + 1 else 0) 1
  | _ => counts

def symbolLengths (limit : Nat) (trees : List WeightedTree) : List (Nat × Nat) :=
  match Heap.joinAll (.ofTrees trees) [] with
  | (none, _) => []
  | (some tree, joined) =>
    let depths := tree.depths 0
    let excess := tree.countBelow limit 0
    if excess = 0 then depths
    else
      let counts := Nat.repeat (LengthCounts.makeRoom limit) ((excess + 1) / 2)
        (LengthCounts.ofDepths limit depths)
      (joined.reverse.filterMap SymbolTree.symbol?).zip counts.lengths

def wordLengths (limit : Nat) (counts : List Nat) : List Nat :=
  let trees := (counts.zipIdx.filter fun p => p.1 != 0).map fun p => WeightedTree.ofSymbol p.2 p.1
  ((symbolLengths limit trees).foldl (fun l s => l.setIfInBounds s.1 s.2)
    (Array.replicate counts.length 0)).toList

end BlockContainer.Deflate
