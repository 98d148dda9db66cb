import BlockContainer.Proofs.Marker.Borders
import BlockContainer.Proofs.Marker.Occurrences

/-! # Searching in pieces

Between two buffers a searcher remembers the longest proper prefix of its pattern that ends
the bytes seen so far. So what it finds does not depend on where the buffers are cut: it is
the first place at which the pattern ends.
-/
namespace BlockContainer.Searcher

/-- The searcher has seen these bytes since it started afresh, and no whole pattern. -/
structure Seen (s : Searcher) (seen : Bytes) : Prop where
  covers : s.borders.Covers s.pattern.toList s.pattern.size
  pattern_pos : 0 < s.pattern.size
  matched : LongestEnd s.pattern.toList seen (s.pattern.size - 1) s.matched

theorem Seen.pattern_ne_nil {s : Searcher} {seen : Bytes} (h : s.Seen seen) :
    s.pattern.toList ≠ [] := by
  rw [← List.length_pos_iff, Array.length_toList]
  exact h.pattern_pos

/-- A searcher has seen nothing when it is new. -/
theorem seen_new {pattern : Bytes} (hne : pattern ≠ []) :
    Seen { pattern := pattern.toArray, borders := .ofPattern pattern.toArray, matched := 0 } [] where
  covers := BorderTable.covers_ofPattern _
  pattern_pos := List.length_pos_iff.2 hne
  matched := longestEnd_nil hne _

theorem Seen.restart {s : Searcher} {seen : Bytes} (h : s.Seen seen) :
    ({ s with matched := 0 } : Searcher).Seen [] where
  covers := h.covers
  pattern_pos := h.pattern_pos
  matched := longestEnd_nil h.pattern_ne_nil _

/-- One more byte either completes the pattern or is one more byte seen. -/
theorem Seen.extend {s : Searcher} {seen : Bytes} (h : s.Seen seen) (b : UInt8) :
    let k := s.borders.extend s.pattern s.matched b
    (k = s.pattern.size ↔ s.pattern.toList <:+ seen ++ [b]) ∧
      (k ≠ s.pattern.size → ({ s with matched := k } : Searcher).Seen (seen ++ [b])) := by
  have hpos := h.pattern_pos
  have hcap := h.matched.le_cap
  have hextend := BorderTable.extend_longest h.covers (by omega) (by omega) h.matched b
  rw [Nat.sub_add_cancel hpos] at hextend
  have hwhole : s.pattern.toList.take s.pattern.size = s.pattern.toList := by
    rw [← Array.length_toList, List.take_length]
  have hle := hextend.le_cap
  refine ⟨⟨fun hk => ?_, fun hends => ?_⟩, fun hne => ⟨h.covers, hpos, ?_⟩⟩
  · have := hextend.ends
    rwa [hk, hwhole] at this
  · rw [← hwhole] at hends
    exact Nat.le_antisymm hle (hextend.longest _ (Nat.le_refl _) hends)
  · exact hextend.shrink (Nat.sub_le _ _) (by simp only at hne ⊢; omega)

theorem findFrom_cases {s : Searcher} {seen : Bytes} (h : s.Seen seen) (index : Nat)
    (buffer : Bytes) :
    (∃ s', s.findFrom index buffer = (none, s') ∧ s'.Seen (seen ++ buffer) ∧
      s'.pattern = s.pattern ∧
      ∀ i ≤ buffer.length, 0 < i → ¬s.pattern.toList <:+ seen ++ buffer.take i) ∨
    ∃ last s', s.findFrom index buffer = (some (index + last), s') ∧ s'.Seen [] ∧
      s'.pattern = s.pattern ∧ last < buffer.length ∧
      s.pattern.toList <:+ seen ++ buffer.take (last + 1) ∧
      ∀ i ≤ last, 0 < i → ¬s.pattern.toList <:+ seen ++ buffer.take i := by
  induction buffer generalizing s seen index with
  | nil =>
    refine .inl ⟨s, rfl, by simpa using h, rfl, fun i hi hpos => ?_⟩
    exact absurd hpos (by simpa using hi)
  | cons b rest ih =>
    obtain ⟨hwhole, hseen⟩ := h.extend b
    rw [findFrom]
    split
    · next hk =>
      refine .inr ⟨0, _, rfl, h.restart, rfl, by simp, ?_, fun i hi hpos => by omega⟩
      simpa using hwhole.1 hk
    · next hk =>
      have hnext := hseen hk
      have hnot : ¬s.pattern.toList <:+ seen ++ [b] := fun hends => hk (hwhole.2 hends)
      have hcons : ∀ i, seen ++ (b :: rest).take (i + 1) = seen ++ [b] ++ rest.take i := by
        simp
      rcases ih hnext (index + 1) with ⟨s', hfind, hs', hpattern, hnone⟩ |
        ⟨last, s', hfind, hs', hpattern, hlast, hends, hnone⟩
      · refine .inl ⟨s', hfind, by simpa using hs', hpattern, fun i hi hpos => ?_⟩
        obtain ⟨i, rfl⟩ := Nat.exists_eq_succ_of_ne_zero (Nat.ne_of_gt hpos)
        rw [hcons]
        rcases Nat.eq_zero_or_pos i with rfl | hpos
        · simpa using hnot
        · exact hnone i (by simpa using hi) hpos
      · refine .inr ⟨last + 1, s', ?_, hs', hpattern, by simpa using hlast, ?_, fun i hi hpos => ?_⟩
        · rw [hfind, Nat.add_assoc, Nat.add_comm 1]
        · rw [hcons]
          exact hends
        · obtain ⟨i, rfl⟩ := Nat.exists_eq_succ_of_ne_zero (Nat.ne_of_gt hpos)
          rw [hcons]
          rcases Nat.eq_zero_or_pos i with rfl | hpos
          · simpa using hnot
          · exact hnone i (by omega) hpos

/-- A buffer either has no end of the pattern or the searcher finds the first one. -/
theorem find_cases {s : Searcher} {seen : Bytes} (h : s.Seen seen)
    (habsent : Absent s.pattern.toList seen) (buffer : Bytes) :
    (∃ s', s.find buffer = (none, s') ∧ s'.Seen (seen ++ buffer) ∧ s'.pattern = s.pattern ∧
      Absent s.pattern.toList (seen ++ buffer)) ∨
    ∃ last s', s.find buffer = (some last, s') ∧ s'.Seen [] ∧ s'.pattern = s.pattern ∧
      last < buffer.length ∧ FirstEnd s.pattern.toList (seen ++ buffer.take (last + 1))
        (seen ++ buffer.take (last + 1)).length := by
  rcases findFrom_cases h 0 buffer with ⟨s', hfind, hs', hpattern, hnone⟩ |
    ⟨last, s', hfind, hs', hpattern, hlast, hends, hnone⟩
  · exact .inl ⟨s', hfind, hs', hpattern, habsent.append hnone⟩
  · refine .inr ⟨last, s', ?_, hs', hpattern, hlast, habsent.firstEnd hends fun k hk => ?_⟩
    · rw [find, hfind, Nat.zero_add]
    · rw [List.length_take_of_le hlast] at hk
      rw [List.take_take, Nat.min_eq_left (Nat.le_of_lt hk)]
      exact hnone k (Nat.le_of_lt_succ hk)

end BlockContainer.Searcher
