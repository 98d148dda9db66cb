import BlockContainer.Deflate.Token

/-! # Finding copies

The data are cut into tokens from left to right. Earlier positions with the same next
three bytes are chained by a hash of these, the latest first. A greedy search makes each
copy that it finds. A lazy one holds a copy back for one byte: when a longer one begins
there, the byte before it becomes a literal.

Only what is in a window is searched, which starts with the data and moves on by its own
size. The first position of the window ends every chain and is never copied from.
-/
namespace BlockContainer.Deflate

inductive Manner where
  /-- Positions within a copy are chained too when the copy is no longer than this. -/
  | greedy (chained : Nat)
  /-- From one length of a held copy on only a quarter of the chain is searched, and from
  the other on no longer copy is looked for. -/
  | lazy (good enough : Nat)
deriving DecidableEq, Repr

structure Effort where
  manner : Manner
  /-- A copy of this length ends a search. -/
  nice : Nat
  chain : Nat
deriving DecidableEq, Repr

namespace Effort

def levels : Array Effort := #[
  ⟨.greedy 4, 8, 4⟩, ⟨.greedy 5, 16, 8⟩, ⟨.greedy 6, 32, 32⟩,
  ⟨.lazy 4 4, 16, 16⟩, ⟨.lazy 8 16, 32, 32⟩, ⟨.lazy 8 16, 128, 128⟩,
  ⟨.lazy 8 32, 128, 256⟩, ⟨.lazy 32 128, 258, 1024⟩, ⟨.lazy 32 258, 258, 4096⟩]

end Effort

namespace Search

def maxCopy : Nat := 258
def minCopy : Nat := 3
def maxDistance : Nat := 32506

/-- A copy of the least length is not worth a longer distance than this. -/
def maxShortDistance : Nat := 4096

structure Chains where
  latest : Array Nat
  earlier : Array Nat

namespace Chains

def hashSize : Nat := 32768

def create (size : Nat) : Chains := ⟨Array.replicate hashSize 0, Array.replicate size 0⟩

def hash (data : Array UInt8) (i : Nat) : Nat :=
  (((data.getD i 0).toNat <<< 10) ^^^ ((data.getD (i + 1) 0).toNat <<< 5) ^^^
    (data.getD (i + 2) 0).toNat) % hashSize

def enter (data : Array UInt8) (i : Nat) (c : Chains) : Nat × Chains :=
  if data.size < i + minCopy then (0, c)
  else
    let h := hash data i
    let before := c.latest.getD h 0
    (before, ⟨c.latest.setIfInBounds h i, c.earlier.setIfInBounds i before⟩)

def enterAll (data : Array UInt8) (first count : Nat) (c : Chains) : Chains :=
  (List.range' first count).foldl (fun c i => (c.enter data i).2) c

end Chains

def agreement (data : Array UInt8) : (limit i j : Nat) → Nat
  | 0, _, _ => 0
  | limit + 1, i, j =>
    if data.getD i 0 == data.getD j 0 then agreement data limit (i + 1) (j + 1) + 1 else 0

structure Found where
  length : Nat
  origin : Nat

def nothing : Found := ⟨minCopy - 1, 0⟩

def windowSize : Nat := 32768

/-- The window moves on when it ends less than this behind a position. -/
def lookahead : Nat := 262

/-- Where the window starts when a position is reached. At the end of the data it moves on
one position earlier. -/
def windowStart (size position : Nat) : Nat :=
  let reached := if size - position < lookahead then position else position - 1
  (reached - maxDistance) / windowSize * windowSize

/-- The longest copy along a chain, the latest of equals, if it is longer than `best`. Only
what is behind `limit` is copied. -/
def along (data : Array UInt8) (earlier : Array Nat) (position nice limit : Nat) :
    (chain candidate : Nat) → Found → Found
  | 0, _, best => best
  | chain + 1, candidate, best =>
    let length := agreement data (min maxCopy (data.size - position)) candidate position
    let best := if best.length < length then ⟨length, candidate⟩ else best
    let next := earlier.getD candidate 0
    if nice ≤ best.length ∨ next ≤ limit then best
    else along data earlier position nice limit chain next best

def longest (e : Effort) (data : Array UInt8) (c : Chains) (chain position candidate : Nat)
    (best : Found) : Found :=
  let start := windowStart data.size position
  if candidate ≤ start ∨ maxDistance < position - candidate then nothing
  else
    along data c.earlier position (min e.nice (data.size - position))
      (max start (position - maxDistance)) chain candidate best

def greedyFrom (e : Effort) (chained : Nat) (data : Array UInt8) (position : Nat) (c : Chains)
    (out : Array Token) : Array Token :=
  if position < data.size then
    let (candidate, c) := c.enter data position
    let found := longest e data c e.chain position candidate nothing
    if minCopy ≤ found.length then
      let c := if found.length ≤ chained ∧ position + found.length + minCopy ≤ data.size then
          c.enterAll data (position + 1) (found.length - 1)
        else c
      greedyFrom e chained data (position + found.length) c
        (out.push (.copy found.length (position - found.origin)))
    else greedyFrom e chained data (position + 1) c (out.push (.literal (data.getD position 0)))
  else out
termination_by data.size - position
decreasing_by
  · change data.size - (position + found.length) < data.size - position
    simp only [minCopy] at *
    omega
  · omega

def longer (e : Effort) (good enough : Nat) (data : Array UInt8) (c : Chains)
    (position candidate : Nat) (held : Found) : Found :=
  if enough ≤ held.length then nothing
  else
    let chain := if good ≤ held.length then e.chain / 4 else e.chain
    let found := longest e data c chain position candidate held
    if found.length = minCopy ∧ maxShortDistance < position - found.origin then nothing else found

def coverWaiting (data : Array UInt8) (position : Nat) (waiting : Bool) (out : Array Token) :
    Array Token :=
  if waiting then out.push (.literal (data.getD (position - 1) 0)) else out

/-- Goes on at a position. `held` was found one byte before; if `waiting`, no token covers
that byte yet. -/
def lazyFrom (e : Effort) (good enough : Nat) (data : Array UInt8) (position : Nat) (c : Chains)
    (waiting : Bool) (held : Found) (out : Array Token) : Array Token :=
  if position < data.size then
    let (candidate, c) := c.enter data position
    let found := longer e good enough data c position candidate held
    if minCopy ≤ held.length ∧ found.length ≤ held.length then
      let copy := Token.copy held.length (position - 1 - held.origin)
      lazyFrom e good enough data (position + held.length - 1)
        (c.enterAll data (position + 1) (held.length - 2)) false nothing (out.push copy)
    else
      lazyFrom e good enough data (position + 1) c true found
        (coverWaiting data position waiting out)
  else coverWaiting data position waiting out
termination_by data.size - position
decreasing_by
  · simp only [minCopy] at *
    omega
  · omega

end Search

def Effort.tokens (e : Effort) (data : Bytes) : List Token :=
  let data := data.toArray
  match e.manner with
  | .greedy chained => (Search.greedyFrom e chained data 0 (.create data.size) #[]).toList
  | .lazy good enough =>
    (Search.lazyFrom e good enough data 0 (.create data.size) false Search.nothing #[]).toList

end BlockContainer.Deflate
