import BlockContainer.Proofs.Marker.Borders
import Mathlib.Order.Bounds.Basic

/-! # Falling back inside the table

The entry of a table at a position is the length of the longest proper prefix of the pattern that
ends the pattern up to there. The table is grown, and buffers are searched, by falling back
along it. Here these loops are told with each of their reads: there is a run only if every
read hits the pattern or an entry that has been written, and every turn goes down. There is a
run for every pattern and for all buffers, and it ends with what is computed.
-/
namespace BlockContainer

def IsBorder (text : Bytes) (k : Nat) : Prop := k < text.length ∧ text.take k <:+ text

namespace BorderTable

variable {pattern : Array UInt8} {t : BorderTable} {b : UInt8} {k : Nat}

/-- The run of a fallback loop on a byte, from one matched length to the one that it leaves with. -/
inductive Falls (lengths : Array Nat) (pattern : Array UInt8) (b : UInt8) : Nat → Nat → Prop where
  | extended {k : Nat} : pattern[k]? = some b → Falls lengths pattern b k (k + 1)
  | exhausted {c : UInt8} : pattern[0]? = some c → c ≠ b → Falls lengths pattern b 0 0
  | back {k next result : Nat} {c : UInt8} : 0 < k → pattern[k]? = some c → c ≠ b →
      lengths[k - 1]? = some next → next < k → Falls lengths pattern b next result →
      Falls lengths pattern b k result

/-- The run of the loop over the pattern that writes one entry after another, the last of which
is `k`. -/
inductive Builds (pattern : Array UInt8) : Array Nat → Nat → Array Nat → Prop where
  | done {lengths : Array Nat} {k : Nat} : lengths.size = pattern.size →
      Builds pattern lengths k lengths
  | entry {lengths all : Array Nat} {k next : Nat} {b : UInt8} : pattern[lengths.size]? = some b →
      Falls lengths pattern b k next → Builds pattern (lengths.push next) next all →
      Builds pattern lengths k all

theorem falls_extend (t : BorderTable) (b : UInt8) (hk : k < pattern.size)
    (hsize : k ≤ t.lengths.size) : Falls t.lengths pattern b k (t.extend pattern k b) := by
  simp only [extend]
  fun_induction fallBack t pattern b k with
  | case1 k hstop =>
    split
    · next hnext => exact .extended hnext
    · next hnext =>
      obtain rfl : k = 0 := hstop.resolve_right hnext
      rw [Array.getElem?_eq_getElem hk, Option.some.injEq] at hnext
      exact .exhausted (Array.getElem?_eq_getElem hk) hnext
  | case2 k hgo ih =>
    obtain ⟨hzero, hnext⟩ := not_or.1 hgo
    have hentry : k - 1 < t.lengths.size := by omega
    have hle := t.border_le (k - 1)
    have hread : t.lengths[k - 1]? = some (t.border (k - 1)) := by
      rw [Array.getElem?_eq_getElem hentry, border, dif_pos hentry]
    rw [Array.getElem?_eq_getElem hk, Option.some.injEq] at hnext
    exact .back (by omega) (Array.getElem?_eq_getElem hk) hnext hread (by omega)
      (ih (by omega) (by omega))

theorem size_grow (hk : k < t.lengths.size) (rest : List UInt8) :
    (grow pattern t k hk rest).lengths.size = t.lengths.size + rest.length := by
  induction rest generalizing t k with
  | nil => rfl
  | cons b rest ih =>
    have hextend : t.extend pattern k b ≤ t.lengths.size := by
      have := t.extend_le pattern k b
      omega
    refine (ih (t := t.push _ hextend) _).trans ?_
    rw [size_push, List.length_cons, Nat.add_right_comm, Nat.add_assoc]

theorem size_ofPattern (pattern : Array UInt8) :
    (ofPattern pattern).lengths.size = pattern.size := by
  have hlength : pattern.toList.length = pattern.size := Array.length_toList
  rw [ofPattern, ← hlength]
  split
  · next hnil =>
    rw [hnil]
    rfl
  · next b rest hcons =>
    rw [hcons, size_grow, size_push, List.length_cons, Nat.add_comm]
    rfl

theorem builds_grow (hk : k < t.lengths.size) {rest : List UInt8}
    (hrest : pattern.toList.drop t.lengths.size = rest) (hsize : t.lengths.size ≤ pattern.size) :
    Builds pattern t.lengths k (grow pattern t k hk rest).lengths := by
  induction rest generalizing t k with
  | nil =>
    have hend := congrArg List.length hrest
    simp only [List.length_drop, Array.length_toList, List.length_nil] at hend
    exact .done (by omega)
  | cons b rest ih =>
    have hlength := congrArg List.length hrest
    simp only [List.length_drop, Array.length_toList, List.length_cons] at hlength
    have hnext : pattern[t.lengths.size]? = some b := by
      rw [← Array.getElem?_toList, ← List.head?_drop, hrest]
      rfl
    have hextend : t.extend pattern k b ≤ t.lengths.size := by
      have := t.extend_le pattern k b
      omega
    refine .entry hnext (t.falls_extend b (by omega) (by omega))
      (ih (t := t.push _ hextend) _ ?_ ?_)
    · rw [size_push, ← List.drop_drop, hrest]
      rfl
    · rw [size_push]
      omega

theorem builds_ofPattern (hpos : 0 < pattern.size) :
    Builds pattern #[0] 0 (ofPattern pattern).lengths := by
  rw [ofPattern]
  split
  · next hnil =>
    rw [← Array.length_toList, hnil] at hpos
    exact absurd hpos (Nat.lt_irrefl 0)
  · next b rest hcons =>
    refine builds_grow (t := empty.push 0 (Nat.zero_le _)) _ ?_ hpos
    rw [hcons]
    rfl

/-- The entries are the lengths of the longest borders. -/
theorem isGreatest_ofPattern (pattern : Array UInt8) {i : Nat}
    (hi : i < (ofPattern pattern).lengths.size) :
    IsGreatest {k | IsBorder (pattern.toList.take (i + 1)) k} (ofPattern pattern).lengths[i] := by
  have hsize := size_ofPattern pattern
  have hlength : (pattern.toList.take (i + 1)).length = i + 1 := by
    rw [List.length_take, Array.length_toList]
    omega
  have hlongest := covers_ofPattern pattern i (by omega)
  rw [border, dif_pos hi] at hlongest
  have htake {k : Nat} (hk : k ≤ i) :
      (pattern.toList.take (i + 1)).take k = pattern.toList.take k := by
    rw [List.take_take, Nat.min_eq_left (by omega)]
  refine ⟨⟨?_, ?_⟩, ?_⟩
  · rw [hlength]
    exact Nat.lt_succ_of_le hlongest.le_cap
  · rw [htake hlongest.le_cap]
    exact hlongest.ends
  · rintro k ⟨hk, hends⟩
    rw [hlength] at hk
    rw [htake (by omega)] at hends
    exact hlongest.longest k (by omega) hends

end BorderTable

namespace Searcher

variable {s : Searcher}

/-- The run of a search through a buffer, from one matched length to the one that is kept for the
next buffer, with the place of the last byte of a match. -/
inductive Scans (lengths : Array Nat) (pattern : Array UInt8) :
    (index matched : Nat) → Bytes → Option Nat → Nat → Prop where
  | nothing {index matched : Nat} : Scans lengths pattern index matched [] none matched
  | found {index matched : Nat} {b : UInt8} {rest : Bytes} :
      BorderTable.Falls lengths pattern b matched pattern.size →
      Scans lengths pattern index matched (b :: rest) (some index) 0
  | next {index matched next kept : Nat} {b : UInt8} {rest : Bytes} {found? : Option Nat} :
      BorderTable.Falls lengths pattern b matched next → next ≠ pattern.size →
      Scans lengths pattern (index + 1) next rest found? kept →
      Scans lengths pattern index matched (b :: rest) found? kept

structure Ready (s : Searcher) : Prop where
  matched_lt : s.matched < s.pattern.size
  size_eq : s.borders.lengths.size = s.pattern.size

theorem scans_findFrom (h : s.Ready) (index : Nat) (buffer : Bytes) :
    Scans s.borders.lengths s.pattern index s.matched buffer (s.findFrom index buffer).1
        (s.findFrom index buffer).2.matched ∧
      (s.findFrom index buffer).2.Ready ∧ (s.findFrom index buffer).2.pattern = s.pattern ∧
      (s.findFrom index buffer).2.borders = s.borders := by
  induction buffer generalizing s index with
  | nil => exact ⟨.nothing, h, rfl, rfl⟩
  | cons b rest ih =>
    have hmatched := h.matched_lt
    have hfalls := s.borders.falls_extend b hmatched (by rw [h.size_eq]; omega)
    have hle := s.borders.extend_le s.pattern s.matched b
    rw [findFrom]
    split
    · next hwhole =>
      rw [hwhole] at hfalls
      exact ⟨.found hfalls, ⟨by simp only; omega, h.size_eq⟩, rfl, rfl⟩
    · next hwhole =>
      obtain ⟨hscans, hready, hpattern, hborders⟩ :=
        ih (s := { s with matched := s.borders.extend s.pattern s.matched b })
          ⟨by simp only; omega, h.size_eq⟩ (index + 1)
      exact ⟨.next hfalls hwhole hscans, hready, hpattern, hborders⟩

def afterAll (s : Searcher) (buffers : List Bytes) : Searcher :=
  buffers.foldl (fun s buffer => (s.find buffer).2) s

theorem ready_afterAll (h : s.Ready) (buffers : List Bytes) :
    (s.afterAll buffers).Ready ∧ (s.afterAll buffers).pattern = s.pattern ∧
      (s.afterAll buffers).borders = s.borders := by
  induction buffers generalizing s with
  | nil => exact ⟨h, rfl, rfl⟩
  | cons buffer rest ih =>
    obtain ⟨-, hready, hpattern, hborders⟩ := scans_findFrom h 0 buffer
    obtain ⟨hready, hpattern', hborders'⟩ := ih hready
    exact ⟨hready, hpattern'.trans hpattern, hborders'.trans hborders⟩

/-- A searcher for a pattern has a table with an entry for each byte, the length of the longest
proper prefix of the pattern that ends the pattern up to that byte, so not above its position. It
takes a run of the loop over the pattern to write it, in which falling back reads only what is
there and goes down, and any search through any buffer takes such a run as well. -/
theorem holds_longest_borders {pattern : Bytes} (hne : pattern ≠ []) :
    ∃ s, create pattern = .ok s ∧ s.borders.lengths.size = pattern.length ∧
      (∀ i (hi : i < s.borders.lengths.size), s.borders.lengths[i] ≤ i ∧
        IsGreatest {k | IsBorder (pattern.take (i + 1)) k} s.borders.lengths[i]) ∧
      BorderTable.Builds pattern.toArray #[0] 0 s.borders.lengths ∧
      ∀ buffers buffer, Scans s.borders.lengths pattern.toArray 0 (s.afterAll buffers).matched
        buffer ((s.afterAll buffers).find buffer).1 ((s.afterAll buffers).find buffer).2.matched := by
  let s : Searcher :=
    { pattern := pattern.toArray, borders := .ofPattern pattern.toArray, matched := 0 }
  have hcreate : create pattern = .ok s := by
    rw [create, if_neg (by simpa using hne)]
  have hpos : 0 < pattern.toArray.size := List.length_pos_iff.2 hne
  have hsize := BorderTable.size_ofPattern pattern.toArray
  have hready : s.Ready := ⟨hpos, hsize⟩
  refine ⟨s, hcreate, hsize, fun i hi => ⟨?_, ?_⟩, ?_, fun buffers buffer => ?_⟩
  · exact s.borders.le_position i hi
  · exact BorderTable.isGreatest_ofPattern pattern.toArray hi
  · exact BorderTable.builds_ofPattern hpos
  · obtain ⟨hready, hpattern, hborders⟩ := ready_afterAll hready buffers
    have hscans := (scans_findFrom hready 0 buffer).1
    rwa [hpattern, hborders] at hscans

/-- The last entry of this table is the length of `aa`, to which the loop falls back from `aab`. -/
theorem holds_longest_borders_aabaaa :
    ("aabaaa" : Bytes) ≠ [] ∧ ∃ s, create "aabaaa" = .ok s ∧ s.borders.lengths[5]? = some 2 ∧
      BorderTable.Builds ("aabaaa" : Bytes).toArray #[0] 0 s.borders.lengths := by
  have hne : ("aabaaa" : Bytes) ≠ [] := by decide
  obtain ⟨s, hcreate, hsize, hentries, hbuilds, -⟩ := holds_longest_borders hne
  have hlast : 5 < s.borders.lengths.size := hsize.symm ▸ by decide
  have hbound : ∀ k < 6, ("aabaaa" : Bytes).take k <:+ "aabaaa" → k ≤ 2 := by decide
  have hgreatest : IsGreatest {k | IsBorder "aabaaa" k} 2 :=
    ⟨⟨by decide, by decide⟩, fun k hk => hbound k hk.1 hk.2⟩
  refine ⟨hne, s, hcreate, ?_, hbuilds⟩
  rw [Array.getElem?_eq_getElem hlast, (hentries 5 hlast).2.unique hgreatest]

end Searcher
end BlockContainer
