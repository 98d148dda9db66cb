import BlockContainer.Bytes

/-! # Occurrences of a pattern

A pattern may end at many offsets of a text, and its occurrences may overlap. Taken from the
left, and each only if it begins behind the one that was taken before, they are found one by
one: the first occurrence in the text, then the first one in the text behind that.
-/
namespace BlockContainer

structure FirstEnd (pattern text : Bytes) (e : Nat) : Prop where
  le_length : e ≤ text.length
  ends : pattern <:+ text.take e
  first : ∀ i < e, 0 < i → ¬pattern <:+ text.take i

/-- Where a scan of the text ends: behind the first pattern, or at the end without one. -/
def ScanEnd (pattern text : Bytes) (e : Nat) : Prop :=
  FirstEnd pattern text e ∨ e = text.length ∧ ∀ i ≤ e, 0 < i → ¬pattern <:+ text.take i

def Absent (pattern text : Bytes) : Prop := ∀ i ≤ text.length, 0 < i → ¬pattern <:+ text.take i

section Ends

variable {pattern text : Bytes} {e e' : Nat}

theorem absent_nil (pattern : Bytes) : Absent pattern [] := by
  intro i hi hpos
  exact absurd hpos (Nat.not_lt.2 hi)

theorem Absent.append {more : Bytes} (h : Absent pattern text)
    (hmore : ∀ k ≤ more.length, 0 < k → ¬pattern <:+ text ++ more.take k) :
    Absent pattern (text ++ more) := by
  intro i hi hpos
  by_cases hold : i ≤ text.length
  · rw [List.take_append_of_le_length hold]
    exact h i hold hpos
  · obtain ⟨k, rfl⟩ := Nat.exists_eq_add_of_le (Nat.le_of_not_le hold)
    rw [List.length_append] at hi
    rw [List.take_length_add_append]
    exact hmore k (by omega) (by omega)

/-- A text without the pattern goes on to where the pattern ends first. -/
theorem Absent.firstEnd {more : Bytes} (h : Absent pattern text) (hends : pattern <:+ text ++ more)
    (hmore : ∀ k < more.length, 0 < k → ¬pattern <:+ text ++ more.take k) :
    FirstEnd pattern (text ++ more) (text ++ more).length where
  le_length := Nat.le_refl _
  ends := by rwa [List.take_length]
  first := by
    intro i hi hpos
    by_cases hold : i ≤ text.length
    · rw [List.take_append_of_le_length hold]
      exact h i hold hpos
    · obtain ⟨k, rfl⟩ := Nat.exists_eq_add_of_le (Nat.le_of_not_le hold)
      rw [List.length_append] at hi
      rw [List.take_length_add_append]
      exact hmore k (by omega) (by omega)

theorem FirstEnd.append (h : FirstEnd pattern text e) (more : Bytes) :
    FirstEnd pattern (text ++ more) e where
  le_length := by
    rw [List.length_append]
    exact Nat.le_add_right_of_le h.le_length
  ends := by
    rw [List.take_append_of_le_length h.le_length]
    exact h.ends
  first := by
    intro i hi
    rw [List.take_append_of_le_length (Nat.le_trans (Nat.le_of_lt hi) h.le_length)]
    exact h.first i hi

theorem FirstEnd.length_le (h : FirstEnd pattern text e) : pattern.length ≤ e := by
  have hlength := h.ends.length_le
  rw [List.length_take] at hlength
  exact Nat.le_trans hlength (Nat.min_le_left _ _)

theorem FirstEnd.pos (h : FirstEnd pattern text e) (hpattern : pattern ≠ []) : 0 < e :=
  Nat.lt_of_lt_of_le (List.length_pos_iff.2 hpattern) h.length_le

theorem ScanEnd.le_length (h : ScanEnd pattern text e) : e ≤ text.length :=
  h.elim FirstEnd.le_length fun hend => Nat.le_of_eq hend.1

theorem ScanEnd.unique (hpattern : pattern ≠ []) (h : ScanEnd pattern text e)
    (h' : ScanEnd pattern text e') : e = e' := by
  have hnot {e e' : Nat} (h : FirstEnd pattern text e) (h' : ScanEnd pattern text e') :
      e' ≤ e := by
    rcases h' with h' | ⟨rfl, hnone⟩
    · exact Nat.not_lt.1 fun hlt => h'.first e hlt (h.pos hpattern) h.ends
    · exact absurd h.ends (hnone e h.le_length (h.pos hpattern))
  have hle {e e' : Nat} (h : ScanEnd pattern text e) (h' : ScanEnd pattern text e') :
      e' ≤ e := by
    rcases h with h | ⟨rfl, -⟩
    · exact hnot h h'
    · exact h'.le_length
  exact Nat.le_antisymm (hle h' h) (hle h h')

end Ends

def endings (pattern text : Bytes) : List Nat :=
  (List.range (text.length + 1)).filter fun e => pattern.isSuffixOf (text.take e)

/-- Takes from the left the occurrences of this width that begin behind all that are taken. -/
def apart (width : Nat) : (behind : Nat) → List Nat → List Nat
  | _, [] => []
  | behind, e :: rest =>
    if behind + width ≤ e then e :: apart width e rest else apart width behind rest

/-- The ends of the occurrences of a pattern that are met from the left without overlaps. -/
def occurrences (pattern text : Bytes) : List Nat := apart pattern.length 0 (endings pattern text)

example : endings "aa" "aaaabaa" = [2, 3, 4, 7] := by decide
example : occurrences "aa" "aaaabaa" = [2, 4, 7] := by decide

section Occurrences

variable {pattern text : Bytes} {e : Nat}

theorem occurrences_of_absent (hpattern : pattern ≠ []) (h : Absent pattern text) :
    occurrences pattern text = [] := by
  have hempty : endings pattern text = [] := by
    rw [endings, List.filter_eq_nil_iff]
    intro i hi
    rw [List.isSuffixOf_iff_suffix]
    rcases Nat.eq_zero_or_pos i with rfl | hpos
    · simpa using hpattern
    · exact h i (Nat.lt_succ_iff.1 (List.mem_range.1 hi)) hpos
  rw [occurrences, hempty, apart]

/-- Behind the first occurrence at `e` the others are met as in the text behind it. The candidates
that overlap it are passed over on one side and are none on the other. -/
theorem apart_shift {width : Nat} {p q : Nat → Bool} (candidates : List Nat)
    (hfar : ∀ i ∈ candidates, width ≤ i → p (e + i) = q i) (hnear : ∀ i < width, q i = false)
    (behind : Nat) :
    apart width (e + behind) ((candidates.map (e + ·)).filter p) =
      (apart width behind (candidates.filter q)).map (e + ·) := by
  induction candidates generalizing behind with
  | nil => rfl
  | cons i rest ih =>
    have ih := ih fun j hj => hfar j (List.mem_cons_of_mem i hj)
    rw [List.map_cons, List.filter_cons, List.filter_cons]
    by_cases hi : width ≤ i
    · rw [hfar i List.mem_cons_self hi]
      cases q i with
      | false => exact ih behind
      | true =>
        simp only [if_true, apart, Nat.add_assoc, Nat.add_le_add_iff_left]
        split
        · rw [List.map_cons, ih i]
        · exact ih behind
    · have hpassed : ¬e + behind + width ≤ e + i := by omega
      rw [hnear i (Nat.not_le.1 hi)]
      cases p (e + i) with
      | false => exact ih behind
      | true =>
        simp only [if_true, apart, if_neg hpassed]
        exact ih behind

/-- The first occurrence is met, and then what is met in the text behind it. -/
theorem occurrences_of_first (hpattern : pattern ≠ []) (h : FirstEnd pattern text e) :
    occurrences pattern text = e :: (occurrences pattern (text.drop e)).map (e + ·) := by
  let p (i : Nat) : Bool := pattern.isSuffixOf (text.take i)
  let q (i : Nat) : Bool := pattern.isSuffixOf ((text.drop e).take i)
  have hzero : q 0 = false := by
    rw [Bool.eq_false_iff, Ne, List.isSuffixOf_iff_suffix]
    simpa using hpattern
  have hbefore : (List.range e).filter p = [] := by
    rw [List.filter_eq_nil_iff]
    intro i hi
    rw [List.isSuffixOf_iff_suffix]
    rcases Nat.eq_zero_or_pos i with rfl | hpos
    · simpa using hpattern
    · exact h.first i (List.mem_range.1 hi) hpos
  have hfirst : p e = true := List.isSuffixOf_iff_suffix.2 h.ends
  obtain ⟨k, hk⟩ := Nat.exists_eq_add_of_le h.le_length
  have htext : endings pattern text =
      e :: (((List.range k).map Nat.succ).map (e + ·)).filter p := by
    rw [endings, hk, Nat.add_assoc, List.range_add, List.filter_append, List.range_succ_eq_map,
      List.map_cons, List.filter_cons]
    change (List.range e).filter p ++ (if p e = true then e :: _ else _) = _
    rw [hbefore, hfirst]
    rfl
  have hrest : endings pattern (text.drop e) = ((List.range k).map Nat.succ).filter q := by
    rw [endings, List.length_drop, hk, Nat.add_sub_cancel_left, List.range_succ_eq_map,
      List.filter_cons]
    change (if q 0 = true then _ else _) = _
    rw [hzero]
    rfl
  have hfar : ∀ i ∈ (List.range k).map Nat.succ, pattern.length ≤ i → p (e + i) = q i := by
    intro i hi hwidth
    have hik : i ≤ k := by
      obtain ⟨j, hj, rfl⟩ := List.mem_map.1 hi
      exact List.mem_range.1 hj
    have hlength : pattern.length ≤ ((text.drop e).take i).length := by
      rw [List.length_take, List.length_drop]
      omega
    have hsuffix : (text.drop e).take i <:+ text.take (e + i) := by
      rw [List.take_add]
      exact List.suffix_append _ _
    rw [Bool.eq_iff_iff, List.isSuffixOf_iff_suffix, List.isSuffixOf_iff_suffix]
    constructor
    · intro hends
      exact List.suffix_of_suffix_length_le hends hsuffix hlength
    · intro hends
      exact hends.trans hsuffix
  have hnear : ∀ i < pattern.length, q i = false := by
    intro i hi
    rw [Bool.eq_false_iff, Ne, List.isSuffixOf_iff_suffix]
    intro hends
    have hlength := hends.length_le
    rw [List.length_take] at hlength
    omega
  have hshift := apart_shift ((List.range k).map Nat.succ) hfar hnear 0
  rw [occurrences, htext, apart, if_pos (by simpa using h.length_le), occurrences, hrest, ← hshift]
  rfl

end Occurrences

end BlockContainer
