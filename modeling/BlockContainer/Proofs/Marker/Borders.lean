import BlockContainer.Marker.Search

/-! # Borders

The prefixes of a pattern that end a text form a chain: each is the longest border of the
next longer one, or shorter than that. So falling back by a table of longest borders meets
all of them, from the longest down, and the table that is grown in this way holds the
longest border of every prefix of the pattern.
-/
namespace BlockContainer

/-- Of the prefixes of the pattern up to a length, the longest one that ends the text. -/
structure LongestEnd (pattern text : Bytes) (cap k : Nat) : Prop where
  le_cap : k ≤ cap
  ends : pattern.take k <:+ text
  longest : ∀ j ≤ cap, pattern.take j <:+ text → j ≤ k

theorem LongestEnd.shrink {pattern text : Bytes} {cap cap' k : Nat}
    (h : LongestEnd pattern text cap k) (hcap : cap' ≤ cap) (hk : k ≤ cap') :
    LongestEnd pattern text cap' k :=
  ⟨hk, h.ends, fun j hj hends => h.longest j (Nat.le_trans hj hcap) hends⟩

/-- Only the empty prefix ends a text without bytes. -/
theorem longestEnd_nil {pattern : Bytes} (hne : pattern ≠ []) (cap : Nat) :
    LongestEnd pattern [] cap 0 := by
  refine ⟨Nat.zero_le _, List.nil_suffix, fun j _ hends => ?_⟩
  rcases List.take_eq_nil_iff.1 (List.suffix_nil.1 hends) with hzero | hnil
  · exact Nat.le_of_eq hzero
  · exact absurd hnil hne

theorem take_succ_suffix_iff {pattern text : Bytes} {b : UInt8} {k : Nat}
    (hk : k < pattern.length) :
    pattern.take (k + 1) <:+ text ++ [b] ↔ pattern.take k <:+ text ∧ pattern[k]? = some b := by
  rw [List.take_succ_eq_append_getElem hk, List.getElem?_eq_getElem hk, Option.some.injEq]
  constructor
  · rintro ⟨front, hfront⟩
    rw [← List.append_assoc] at hfront
    obtain ⟨hfront, hlast⟩ := List.append_inj' hfront rfl
    exact ⟨⟨front, hfront⟩, by simpa using hlast⟩
  · rintro ⟨⟨front, rfl⟩, rfl⟩
    exact ⟨front, by rw [List.append_assoc]⟩

namespace BorderTable

variable {pattern : Array UInt8} {t : BorderTable} {n : Nat}

/-- The first entries are the longest proper borders of the prefixes of the pattern. -/
def Covers (t : BorderTable) (pattern : Bytes) (n : Nat) : Prop :=
  ∀ i < n, LongestEnd pattern (pattern.take (i + 1)) i (t.border i)

/-- Falling back finds the longest end that the byte extends, if there is one. -/
theorem fallBack_longest (hcovers : t.Covers pattern.toList n) {text : Bytes} {cap k : Nat}
    (hkn : k ≤ n) (hk : k ≤ cap) (hends : pattern.toList.take k <:+ text) {b : UInt8}
    (hlongest : ∀ j ≤ cap, pattern.toList.take j <:+ text → pattern[j]? = some b → j ≤ k) :
    let r := t.fallBack pattern b k
    pattern.toList.take r <:+ text ∧ (r = 0 ∨ pattern[r]? = some b) ∧
      ∀ j ≤ cap, pattern.toList.take j <:+ text → pattern[j]? = some b → j ≤ r := by
  fun_induction fallBack t pattern b k with
  | case1 k hstop => exact ⟨hends, hstop, hlongest⟩
  | case2 k hgo ih =>
    obtain ⟨hpos, hnext⟩ := not_or.1 hgo
    have hborder := hcovers (k - 1) (by omega)
    rw [Nat.sub_add_cancel (by omega)] at hborder
    have hle := hborder.le_cap
    apply ih (by omega) (by omega) (hborder.ends.trans hends)
    intro j hj hjends hjnext
    have hjk := hlongest j hj hjends hjnext
    have hne : j ≠ k := fun heq => hnext (heq ▸ hjnext)
    -- Both end the text, so the shorter one ends the longer one.
    have hsuffix : pattern.toList.take j <:+ pattern.toList.take k :=
      List.suffix_of_suffix_length_le hjends hends (by simp only [List.length_take]; omega)
    exact hborder.longest j (by omega) hsuffix

theorem extend_longest (hcovers : t.Covers pattern.toList n) {text : Bytes} {cap k : Nat}
    (hkn : k ≤ n) (hcap : cap < pattern.size) (h : LongestEnd pattern.toList text cap k)
    (b : UInt8) :
    LongestEnd pattern.toList (text ++ [b]) (cap + 1) (t.extend pattern k b) := by
  obtain ⟨hends, hstop, hlongest⟩ := fallBack_longest hcovers hkn h.le_cap h.ends (b := b)
    fun j hj hjends _ => h.longest j hj hjends
  have hle := t.fallBack_le pattern b k
  have hkcap := h.le_cap
  simp only [extend]
  have hstep {j : Nat} (hj : j ≤ cap) : pattern.toList.take (j + 1) <:+ text ++ [b] ↔
      pattern.toList.take j <:+ text ∧ pattern[j]? = some b := by
    rw [take_succ_suffix_iff (by rw [Array.length_toList]; omega), Array.getElem?_toList]
  split
  · next hnext =>
    refine ⟨by omega, (hstep (by omega)).2 ⟨hends, hnext⟩, fun j hj hjends => ?_⟩
    cases j with
    | zero => omega
    | succ j =>
      obtain ⟨hjends, hjnext⟩ := (hstep (by omega)).1 hjends
      exact Nat.succ_le_succ (hlongest j (by omega) hjends hjnext)
  · next hnext =>
    have hzero : t.fallBack pattern b k = 0 := hstop.resolve_right hnext
    rw [hzero] at hnext hlongest ⊢
    refine ⟨Nat.zero_le _, List.nil_suffix, fun j hj hjends => ?_⟩
    cases j with
    | zero => exact Nat.le_refl _
    | succ j =>
      obtain ⟨hjends, hjnext⟩ := (hstep (by omega)).1 hjends
      obtain rfl : j = 0 := Nat.le_zero.1 (hlongest j (by omega) hjends hjnext)
      exact absurd hjnext hnext

theorem border_push (t : BorderTable) (k : Nat) (h : k ≤ t.lengths.size) (i : Nat) :
    (t.push k h).border i = if i = t.lengths.size then k else t.border i := by
  simp only [border, push, Array.size_push, Array.getElem_push]
  by_cases hlt : i < t.lengths.size
  · have hne : i ≠ t.lengths.size := Nat.ne_of_lt hlt
    simp [hlt, hne, Nat.lt_succ_of_lt hlt]
  · by_cases heq : i = t.lengths.size
    · simp [heq]
    · have hout : ¬i < t.lengths.size + 1 := by omega
      simp [hlt, heq, hout]

theorem size_push (t : BorderTable) (k : Nat) (h : k ≤ t.lengths.size) :
    (t.push k h).lengths.size = t.lengths.size + 1 := by
  simp [push]

theorem Covers.push {k : Nat} (hcovers : t.Covers pattern.toList t.lengths.size)
    (h : k ≤ t.lengths.size)
    (hk : LongestEnd pattern.toList (pattern.toList.take (t.lengths.size + 1)) t.lengths.size k) :
    (t.push k h).Covers pattern.toList (t.push k h).lengths.size := by
  intro i hi
  rw [size_push] at hi
  rw [border_push]
  split
  · next heq =>
    rw [heq]
    exact hk
  · exact hcovers i (by omega)

theorem covers_grow {k : Nat} (hk : k < t.lengths.size) {rest : List UInt8}
    (hrest : pattern.toList.drop t.lengths.size = rest)
    (hcovers : t.Covers pattern.toList t.lengths.size)
    (hlongest : LongestEnd pattern.toList (pattern.toList.take t.lengths.size)
      (t.lengths.size - 1) k) :
    (grow pattern t k hk rest).Covers pattern.toList pattern.size := by
  induction rest generalizing t k with
  | nil =>
    have : pattern.size ≤ t.lengths.size := by
      have := congrArg List.length hrest
      simp only [List.length_drop, Array.length_toList, List.length_nil] at this
      omega
    exact fun i hi => hcovers i (by omega)
  | cons b rest ih =>
    have hlength := congrArg List.length hrest
    simp only [List.length_drop, Array.length_toList, List.length_cons] at hlength
    have hnext : pattern.toList.take (t.lengths.size + 1) =
        pattern.toList.take t.lengths.size ++ [b] := by
      rw [List.take_add, hrest]
      rfl
    have hextend := extend_longest hcovers (Nat.le_of_lt hk) (by omega) hlongest b
    rw [← hnext, Nat.sub_add_cancel (by omega)] at hextend
    refine ih _ ?_ (hcovers.push _ hextend) ?_
    · rw [size_push, ← List.drop_drop, hrest]
      rfl
    · rw [size_push, Nat.add_sub_cancel]
      exact hextend

/-- The table of a pattern holds the longest proper border of each of its prefixes. -/
theorem covers_ofPattern (pattern : Array UInt8) :
    (ofPattern pattern).Covers pattern.toList pattern.size := by
  rw [ofPattern]
  split
  · next hnil =>
    have : pattern.size = 0 := by rw [← Array.length_toList, hnil]; rfl
    exact fun i hi => by omega
  · next b rest hcons =>
    have hfirst : LongestEnd pattern.toList (pattern.toList.take 1) 0 0 :=
      ⟨Nat.le_refl _, List.nil_suffix, fun j hj _ => hj⟩
    refine covers_grow (t := empty.push 0 (Nat.zero_le _)) _ ?_ ?_ hfirst
    · rw [hcons]
      rfl
    · exact Covers.push (t := empty) (fun i hi => absurd hi (Nat.not_lt_zero i)) _ hfirst

end BorderTable
end BlockContainer
