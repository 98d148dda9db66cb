import BlockContainer.Glob.Set

/-! # Name patterns

In a pattern `?` stands for any byte and `*` for any run of bytes, brackets hold a set of
bytes, and a backslash makes the next byte stand for itself.

A pattern is matched piece by piece, a piece being what is between two runs. A run is as
short as the piece behind it allows, and is not reconsidered: where the next run begins,
the pieces before it are done with. A dot at the head of a name is matched only by a dot
that stands for itself.
-/
namespace BlockContainer.Glob.Pattern

inductive Reach where
  | mismatch
  /-- Pattern and name have ended together. -/
  | finished
  /-- A run begins, with the pattern behind it and the name that is left. -/
  | run (pattern name : Bytes)
deriving DecidableEq, Repr

/-- Whether a name begins with a dot where only a dot that stands for itself can match. -/
def hides (guarded : Bool) (name : Bytes) : Bool := guarded && name.head? == some dot

/-- Matches up to the next run. The head of the name may be guarded against a dot. -/
def reach (guarded : Bool) (pattern name : Bytes) : Reach :=
  match pattern with
  | [] => if name.isEmpty then .finished else .mismatch
  | c :: rest =>
    if c = 0x2a then if hides guarded name then .mismatch else .run rest name
    else match name with
      | [] => .mismatch
      | b :: name =>
        if c = 0x3f then
          if hides guarded (b :: name) then .mismatch else reach false rest name
        else if c = backslash then
          if rest.head? = some b then reach false rest.tail name else .mismatch
        else if c = openBracket then
          if hides guarded (b :: name) then .mismatch
          else match _ : SetReading.ofBytes b rest with
            | .closed true left => reach false left name
            | .closed false _ => .mismatch
            | .unclosed => if b = openBracket then reach false rest name else .mismatch
            | .invalid => .mismatch
        else if b = c then reach false rest name else .mismatch
termination_by pattern.length
decreasing_by
  · simp
  · simp only [List.length_tail, List.length_cons]
    omega
  · have := SetReading.leaves_ofBytes b rest
    simp only [‹SetReading.ofBytes b rest = _›, SetReading.LeavesLessThan, List.length_cons] at *
    omega
  · simp
  · simp

/-- A run leaves less of the pattern than there was. -/
theorem length_of_reach {guarded : Bool} {pattern name behind left : Bytes}
    (h : reach guarded pattern name = .run behind left) : behind.length < pattern.length := by
  fun_induction reach guarded pattern name with
  | case4 =>
    cases h
    simp
  | case7 _ rest _ _ _ _ ih | case13 _ rest _ _ _ _ _ _ ih | case16 _ _ rest _ _ _ _ _ ih =>
    have := ih h
    simp only [List.length_cons]
    omega
  | case8 _ rest _ _ _ _ _ ih =>
    have := ih h
    simp only [List.length_tail, List.length_cons] at *
    omega
  | case11 _ rest b _ _ left hset _ _ _ ih =>
    have hleaves := SetReading.leaves_ofBytes b rest
    have := ih h
    simp only [hset, SetReading.LeavesLessThan, List.length_cons] at *
    omega
  | _ => cases h

/-- Matches up to the run behind a piece, the piece being where it first can be. -/
def reachSomewhere (guarded : Bool) (pattern : Bytes) : Bytes → Reach
  | [] => .mismatch
  | b :: name =>
    match reach guarded pattern (b :: name) with
    | .mismatch => reachSomewhere false pattern name
    | reached => reached

theorem length_of_reachSomewhere {guarded : Bool} {pattern name behind left : Bytes}
    (h : reachSomewhere guarded pattern name = .run behind left) :
    behind.length < pattern.length := by
  induction name generalizing guarded with
  | nil => cases h
  | cons b name ih =>
    unfold reachSomewhere at h
    split at h
    · exact ih h
    · exact length_of_reach h

def matchesBehind (guarded : Bool) (pattern name : Bytes) : Bool :=
  match pattern with
  | [] => true
  | c :: rest =>
    if c = 0x2a then matchesBehind guarded rest name
    else if c = 0x3f then !name.isEmpty && matchesBehind guarded rest name.tail
    else match _ : reachSomewhere guarded (c :: rest) name with
      | .mismatch => false
      | .finished => true
      | .run behind left => matchesBehind false behind left
termination_by pattern.length
decreasing_by
  · simp
  · simp
  · exact length_of_reachSomewhere ‹_›

/-- Whether a pattern matches a whole name. The guard stays in place behind a run that
the pattern begins with. -/
def accepts (pattern name : Bytes) : Bool :=
  match reach true pattern name with
  | .mismatch => false
  | .finished => true
  | .run behind left => matchesBehind (pattern.head? == some 0x2a) behind left

end BlockContainer.Glob.Pattern
