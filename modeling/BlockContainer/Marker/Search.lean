import BlockContainer.Error

/-! # Searching a pattern in a sequence of buffers

The searcher carries the length of the pattern prefix that ends the bytes seen so far, so
a match that straddles two buffers is found and no byte is looked at twice. After a
mismatch it falls back to the longest border of that prefix, by a table that gives for
each position of the pattern the border length of the prefix that ends there.
-/
namespace BlockContainer

/-- Border lengths by position. An entry is at most its position, so falling back ends. -/
structure BorderTable where
  lengths : Array Nat
  le_position : ∀ i (h : i < lengths.size), lengths[i] ≤ i

namespace BorderTable

def border (t : BorderTable) (i : Nat) : Nat := if h : i < t.lengths.size then t.lengths[i] else 0

theorem border_le (t : BorderTable) (i : Nat) : t.border i ≤ i := by
  unfold border
  split
  · exact t.le_position i _
  · exact Nat.zero_le i

def fallBack (t : BorderTable) (pattern : Array UInt8) (b : UInt8) (matched : Nat) : Nat :=
  if matched = 0 ∨ pattern[matched]? = some b then matched
  else t.fallBack pattern b (t.border (matched - 1))
termination_by matched
decreasing_by
  have := t.border_le (matched - 1)
  omega

def extend (t : BorderTable) (pattern : Array UInt8) (matched : Nat) (b : UInt8) : Nat :=
  let k := t.fallBack pattern b matched
  if pattern[k]? = some b then k + 1 else k

theorem fallBack_le (t : BorderTable) (pattern : Array UInt8) (b : UInt8) (matched : Nat) :
    t.fallBack pattern b matched ≤ matched := by
  fun_induction fallBack t pattern b matched with
  | case1 => exact Nat.le_refl _
  | case2 matched _ ih =>
    have := t.border_le (matched - 1)
    omega

theorem extend_le (t : BorderTable) (pattern : Array UInt8) (matched : Nat) (b : UInt8) :
    t.extend pattern matched b ≤ matched + 1 := by
  have := t.fallBack_le pattern b matched
  simp only [extend]
  split <;> omega

def empty : BorderTable := ⟨#[], fun i h => absurd h (Nat.not_lt_zero i)⟩

def push (t : BorderTable) (k : Nat) (h : k ≤ t.lengths.size) : BorderTable where
  lengths := t.lengths.push k
  le_position i hi := by
    rw [Array.getElem_push]
    split
    · exact t.le_position i _
    · simp only [Array.size_push] at hi
      omega

/-- Adds the entries for the bytes of `pattern` from the size of the table on; `k` is the
border length of what the table covers. -/
def grow (pattern : Array UInt8) (t : BorderTable) (k : Nat) (hk : k < t.lengths.size) :
    List UInt8 → BorderTable
  | [] => t
  | b :: rest =>
    let k' := t.extend pattern k b
    have hk' : k' ≤ t.lengths.size := by
      have := t.extend_le pattern k b
      omega
    grow pattern (t.push k' hk') k' (by simp only [push, Array.size_push]; omega) rest

def ofPattern (pattern : Array UInt8) : BorderTable :=
  match pattern.toList with
  | [] => empty
  | _ :: rest => grow pattern (empty.push 0 (Nat.zero_le _)) 0 (by simp [push, empty]) rest

end BorderTable

structure Searcher where
  pattern : Array UInt8
  borders : BorderTable
  matched : Nat

namespace Searcher

def create (pattern : Bytes) : Except Error Searcher :=
  if pattern.isEmpty then .error (.argument .patternEmpty)
  else .ok { pattern := pattern.toArray, borders := .ofPattern pattern.toArray, matched := 0 }

/-- Looks for the pattern; the answer is the index of its last byte in the buffer. After
a match the searcher starts afresh. -/
def findFrom (index : Nat) (s : Searcher) : Bytes → Option Nat × Searcher
  | [] => (none, s)
  | b :: rest =>
    let matched := s.borders.extend s.pattern s.matched b
    if matched = s.pattern.size then (some index, { s with matched := 0 })
    else findFrom (index + 1) { s with matched } rest

def find (s : Searcher) (buffer : Bytes) : Option Nat × Searcher := s.findFrom 0 buffer

end Searcher
end BlockContainer
