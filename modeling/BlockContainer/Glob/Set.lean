import BlockContainer.Glob.Class

/-! # Sets of bytes

A set in brackets lists bytes, ranges, named classes and bytes between marks, and lists
what it excludes when it begins with `!` or `^`. It is read for one byte: up to the first
member that the byte is of, member by member, and behind that one only for the bracket
that closes the set. So what stands behind the member that decides is not looked at as a
range, and a member with a meaning that it cannot have counts only where it is reached.
-/
namespace BlockContainer.Glob

/-- What one member says about a byte, with what is behind the member. -/
inductive Found where
  | hit (rest : Bytes)
  | miss (rest : Bytes)
  /-- The member can have no meaning. -/
  | invalid
deriving DecidableEq, Repr

namespace Found

def test (holds : Bool) (rest : Bytes) : Found := if holds then hit rest else miss rest

def lastBound? : Bytes → Option (UInt8 × Bytes)
  | [] => none
  | c :: rest =>
    if c = openBracket ∧ rest.head? = some dot then
      match Marked.symbol rest.tail with
      | .closed [last] rest => some (last, rest)
      | _ => none
    else if c = backslash then
      match rest with
      | [] => none
      | last :: rest => some (last, rest)
    else some (c, rest)

def range (b first : UInt8) (rest : Bytes) : Found :=
  match rest with
  | 0x2d :: next =>
    if next.head? = some closeBracket then miss rest
    else match lastBound? next with
      | none => invalid
      | some (last, rest) => test (between first last b) rest
  | _ => miss rest

/-- A byte that stands for itself. A hyphen behind it makes a range, but not at the end of
the set or of the pattern. -/
def byte (b first : UInt8) (rest : Bytes) : Found :=
  let ranges := rest.head? == some hyphen && rest.tail.head?.any (· != closeBracket)
  if !ranges && b == first then hit rest else range b first rest

/-- A byte written as a symbol. A hyphen behind it takes it away even at the end of the
set, where no range comes of it. -/
def symbol (b first : UInt8) (rest : Bytes) : Found :=
  let ranges := rest.head? == some hyphen && !rest.tail.isEmpty
  if !ranges && b == first then hit rest else range b first rest

def member (b c : UInt8) (rest : Bytes) : Found :=
  if c = backslash then
    match rest with
    | [] => invalid
    | c :: rest => byte b c rest
  else if c = openBracket ∧ rest.head? = some colon then
    match Marked.className classNameLimit rest.tail with
    | .closed name rest => ((classNamed? name).map fun holds => test (holds b) rest).getD invalid
    | .plain => byte b c rest
    | .endless => invalid
  else if c = openBracket ∧ rest.head? = some equalsSign then
    match Marked.equivalent rest.tail with
    | .closed inner rest => test (inner == [b]) rest
    | _ => byte b c rest
  else if c = openBracket ∧ rest.head? = some dot then
    match Marked.symbol rest.tail with
    | .closed [first] rest => symbol b first rest
    | _ => invalid
  else byte b c rest

def LeavesAtMost (n : Nat) : Found → Prop
  | hit rest | miss rest => rest.length ≤ n
  | invalid => True

theorem leaves_test {n : Nat} {holds : Bool} {rest : Bytes} (h : rest.length ≤ n) :
    LeavesAtMost n (test holds rest) := by
  cases holds <;> exact h

theorem LeavesAtMost.mono {n m : Nat} {f : Found} (h : LeavesAtMost n f) (hnm : n ≤ m) :
    LeavesAtMost m f := by
  cases f with
  | hit rest => exact Nat.le_trans h hnm
  | miss rest => exact Nat.le_trans h hnm
  | invalid => trivial

theorem lastBound?_length {input rest : Bytes} {last : UInt8}
    (h : lastBound? input = some (last, rest)) : rest.length < input.length := by
  unfold lastBound? at h
  split at h
  · cases h
  · next c tail =>
    split at h
    · split at h
      · next hs =>
        have := Marked.symbol_length hs
        cases h
        simp only [List.length_tail, List.length_cons] at *
        omega
      · cases h
    · split at h
      · split at h <;> cases h
        simp only [List.length_cons]
        omega
      · cases h
        simp

theorem leaves_range (b first : UInt8) (rest : Bytes) :
    LeavesAtMost rest.length (range b first rest) := by
  unfold range
  split
  · next next =>
    split
    · exact Nat.le_refl _
    · split
      · trivial
      · next hl =>
        have := lastBound?_length hl
        refine leaves_test ?_
        simp only [List.length_cons]
        omega
  · exact Nat.le_refl _

theorem leaves_byte (b first : UInt8) (rest : Bytes) :
    LeavesAtMost rest.length (byte b first rest) := by
  simp only [byte]
  split
  · exact Nat.le_refl _
  · exact leaves_range b first rest

theorem leaves_symbol (b first : UInt8) (rest : Bytes) :
    LeavesAtMost rest.length (symbol b first rest) := by
  simp only [symbol]
  split
  · exact Nat.le_refl _
  · exact leaves_range b first rest

theorem leaves_member (b c : UInt8) (rest : Bytes) :
    LeavesAtMost rest.length (member b c rest) := by
  have htail : rest.tail.length ≤ rest.length := by simp
  unfold member
  split
  · split
    · trivial
    · next c more => exact (leaves_byte b c more).mono (by simp)
  · split
    · split
      · next name more hm =>
        have := Marked.className_length hm
        cases classNamed? name with
        | none => trivial
        | some holds => exact leaves_test (by omega)
      · exact leaves_byte b c rest
      · trivial
    · split
      · split
        · next hm =>
          have := Marked.equivalent_length hm
          exact leaves_test (by omega)
        · exact leaves_byte b c rest
      · split
        · split
          · next first more hm =>
            have := Marked.symbol_length hm
            exact (leaves_symbol b first more).mono (by omega)
          · trivial
        · exact leaves_byte b c rest

end Found

inductive SetReading where
  /-- Whether the set lists the byte, and what is behind the set. -/
  | closed (lists : Bool) (rest : Bytes)
  /-- The set is never closed: its bracket stands for itself. -/
  | unclosed
  | invalid
deriving DecidableEq, Repr

namespace SetReading

/-- Reads behind the member that decided up to the bracket that closes the set. What
stands between marks is passed over as a whole. -/
def close (input : Bytes) : SetReading :=
  match input with
  | [] => unclosed
  | c :: rest =>
    if c = closeBracket then closed true rest
    else if c = backslash then
      match rest with
      | [] => invalid
      | _ :: rest => close rest
    else if c = openBracket ∧ rest.head? = some colon then
      match _ : Marked.className (classNameLimit - 1) rest.tail with
      | .closed _ rest' => close rest'
      | .plain => close rest
      | .endless => invalid
    else if c = openBracket ∧ rest.head? = some equalsSign then
      match _ : Marked.equivalent rest.tail with
      | .closed _ rest' => close rest'
      | _ => invalid
    else if c = openBracket ∧ rest.head? = some dot then
      match _ : Marked.symbol rest.tail with
      | .closed _ rest' => close rest'
      | _ => invalid
    else close rest
termination_by input.length
decreasing_by
  · simp only [List.length_cons]
    omega
  · have := Marked.className_length ‹_›
    simp only [List.length_tail, List.length_cons] at *
    omega
  · simp
  · have := Marked.equivalent_length ‹_›
    simp only [List.length_tail, List.length_cons] at *
    omega
  · have := Marked.symbol_length ‹_›
    simp only [List.length_tail, List.length_cons] at *
    omega
  · simp

/-- Reads the members of a set up to one that the byte is of. A bracket in the first place
does not close the set. -/
def members (b : UInt8) (input : Bytes) : SetReading :=
  match input with
  | [] => unclosed
  | c :: rest =>
    match _ : Found.member b c rest with
    | .invalid => invalid
    | .hit left => close left
    | .miss [] => unclosed
    | .miss (d :: left) => if d = closeBracket then closed false left else members b (d :: left)
termination_by input.length
decreasing_by
  have := Found.leaves_member b c rest
  simp only [‹Found.member b c rest = _›, Found.LeavesAtMost, List.length_cons] at *
  omega

def LeavesLessThan (n : Nat) : SetReading → Prop
  | closed _ rest => rest.length < n
  | _ => True

theorem LeavesLessThan.mono {n m : Nat} {r : SetReading} (h : LeavesLessThan n r) (hnm : n ≤ m) :
    LeavesLessThan m r := by
  cases r with
  | closed _ rest => exact Nat.lt_of_lt_of_le h hnm
  | unclosed => trivial
  | invalid => trivial

theorem leaves_close (input : Bytes) : LeavesLessThan input.length (close input) := by
  fun_induction close input with
  | case1 => trivial
  | case2 rest => simp [LeavesLessThan]
  | case3 => trivial
  | case4 => exact LeavesLessThan.mono ‹_› (by simp only [List.length_cons]; omega)
  | case5 =>
    have := Marked.className_length ‹_›
    simp only [List.length_tail] at this
    exact LeavesLessThan.mono ‹_› (by simp only [List.length_cons]; omega)
  | case6 => exact LeavesLessThan.mono ‹_› (by simp)
  | case7 => trivial
  | case8 =>
    have := Marked.equivalent_length ‹_›
    simp only [List.length_tail] at this
    exact LeavesLessThan.mono ‹_› (by simp only [List.length_cons]; omega)
  | case9 => trivial
  | case10 =>
    have := Marked.symbol_length ‹_›
    simp only [List.length_tail] at this
    exact LeavesLessThan.mono ‹_› (by simp only [List.length_cons]; omega)
  | case11 => trivial
  | case12 => exact LeavesLessThan.mono ‹_› (by simp)

theorem leaves_members (b : UInt8) (input : Bytes) :
    LeavesLessThan input.length (members b input) := by
  fun_induction members b input with
  | case1 => trivial
  | case2 => trivial
  | case3 c rest more hm =>
    have := Found.leaves_member b c rest
    simp only [hm, Found.LeavesAtMost] at this
    exact (leaves_close more).mono (by simp only [List.length_cons]; omega)
  | case4 => trivial
  | case5 c rest more hm =>
    have := Found.leaves_member b c rest
    simp only [hm, Found.LeavesAtMost, List.length_cons] at this
    simp only [LeavesLessThan, List.length_cons]
    omega
  | case6 c rest d more hm _ ih =>
    have := Found.leaves_member b c rest
    simp only [hm, Found.LeavesAtMost, List.length_cons] at this
    exact ih.mono (by simp only [List.length_cons]; omega)

/-- A set read behind its opening bracket, and whether it has the byte: what it lists, or
what it does not list when it begins with a mark for that. -/
def ofBytes (b : UInt8) (input : Bytes) : SetReading :=
  if input.head? = some 0x21 ∨ input.head? = some 0x5e then
    match members b input.tail with
    | closed lists rest => closed (!lists) rest
    | other => other
  else members b input

theorem leaves_ofBytes (b : UInt8) (input : Bytes) :
    LeavesLessThan input.length (ofBytes b input) := by
  unfold ofBytes
  split
  · have h := leaves_members b input.tail
    have : input.tail.length ≤ input.length := by simp
    split
    · next hm =>
      simp only [hm, LeavesLessThan] at h ⊢
      omega
    · next hm => exact h.mono this
  · exact leaves_members b input

end SetReading
end BlockContainer.Glob
