import Mathlib.Algebra.Ring.Nat
import Mathlib.Data.List.Chain
import BlockContainer.Source.Bundle

/-! # Bundles partition a range of bytes

The bundles of a range lie one behind the other and cover it. All but the last are of one size,
and the last takes in a rest that is too short for a bundle of its own. The offsets are found
with sums and differences that stay within 64 bits.
-/
namespace BlockContainer

namespace Offset

def add? (a b : UInt64) : Option UInt64 :=
  if a.toNat + b.toNat < 2 ^ 64 then some (a + b) else none

def sub? (a b : UInt64) : Option UInt64 := if b ≤ a then some (a - b) else none

end Offset

namespace Source

variable {s : Source} {t : FileTree} {least size offset stop : UInt64}

section Exact

/-- `cutOffset` with sums and differences that must not wrap. -/
def cutOffset? (size offset stop : UInt64) : Option UInt64 := do
  let left ← Offset.sub? stop offset
  if left ≤ size then return stop
  Offset.add? offset size

def bundleStop? (least size offset stop : UInt64) : Option UInt64 := do
  let cut ← cutOffset? size offset stop
  let left ← Offset.sub? stop cut
  return if left < least then stop else cut

theorem cutOffset_le (size : UInt64) (h : offset < stop) : cutOffset size offset stop ≤ stop := by
  have := toNat_cutOffset size h
  rw [UInt64.le_iff_toNat_le]
  omega

theorem cutOffset?_eq (size : UInt64) (h : offset < stop) :
    cutOffset? size offset stop = some (cutOffset size offset stop) := by
  have hleft : Offset.sub? stop offset = some (stop - offset) := if_pos (UInt64.le_of_lt h)
  rw [cutOffset?, cutOffset, hleft, Option.bind_eq_bind, Option.bind_some]
  split
  · rfl
  · next hmore =>
    have hsub := UInt64.toNat_sub_of_le _ _ (UInt64.le_of_lt h)
    have hlt := stop.toNat_lt
    rw [UInt64.le_iff_toNat_le] at hmore
    exact if_pos (by omega)

theorem bundleStop?_eq (least size : UInt64) (h : offset < stop) :
    bundleStop? least size offset stop = some (bundleStop least size offset stop) := by
  have hleft : Offset.sub? stop (cutOffset size offset stop) =
      some (stop - cutOffset size offset stop) := if_pos (cutOffset_le size h)
  rw [bundleStop?, cutOffset?_eq size h, Option.bind_eq_bind, Option.bind_some, hleft]
  rfl

def cutFrom? (s : Source) (size : UInt64) (hsize : 0 < size) (offset stop : UInt64) :
    Option (List Source) :=
  if offset < stop then
    match _ : bundleStop? s.minBundleSize size offset stop with
    | none => none
    | some cut => (cutFrom? s size hsize cut stop).map (s.subrange s.path offset cut :: ·)
  else some []
termination_by stop.toNat - offset.toNat
decreasing_by
  have hcut := ‹bundleStop? _ _ _ _ = some cut›
  rw [bundleStop?_eq _ _ ‹offset < stop›] at hcut
  cases hcut
  have hlt := lt_bundleStop s.minBundleSize hsize ‹offset < stop›
  have hle := bundleStop_le s.minBundleSize size ‹offset < stop›
  simp only [UInt64.lt_iff_toNat_lt, UInt64.le_iff_toNat_le] at hlt hle
  omega

theorem cutFrom?_eq (s : Source) (hsize : 0 < size) (offset stop : UInt64) :
    s.cutFrom? size hsize offset stop = some (s.cutFrom size hsize offset stop) := by
  fun_induction cutFrom s size hsize offset stop with
  | case1 offset hlt cut ih =>
    rw [cutFrom?, if_pos hlt]
    split
    · next hnone => simp [bundleStop?_eq _ _ hlt] at hnone
    · next cut' hsome =>
      rw [bundleStop?_eq _ _ hlt] at hsome
      cases hsome
      rw [ih]
      rfl
  | case2 offset hnot => rw [cutFrom?, if_neg hnot]

def cutRange? (s : Source) (t : FileTree) (desired : UInt64) : Option (Except Error (List Source)) :=
  match s.resolvedStop t with
  | .error cause => some (.error cause)
  | .ok stop =>
    if stop ≤ s.start then some (.ok [s])
    else do
      let left ← Offset.sub? stop s.start
      if left ≤ s.bundleSize desired then return .ok [s]
      return .ok (← s.cutFrom? (s.bundleSize desired) (s.bundleSize_pos desired) s.start stop)

theorem cutRange?_eq (s : Source) (t : FileTree) (desired : UInt64) :
    s.cutRange? t desired = some (s.cutRange t desired) := by
  rw [cutRange?, cutRange]
  cases s.resolvedStop t with
  | error cause => rfl
  | ok stop =>
    by_cases hempty : stop ≤ s.start
    · simp [hempty, bind, Except.bind, pure, Except.pure]
    · have hleft : Offset.sub? stop s.start = some (stop - s.start) :=
        if_pos (UInt64.le_of_lt (UInt64.not_le.1 hempty))
      by_cases hsmall : stop - s.start ≤ s.bundleSize desired
      · simp [hempty, hleft, hsmall, bind, Except.bind, pure, Except.pure]
      · simp [hempty, hleft, hsmall, cutFrom?_eq, bind, Except.bind, pure, Except.pure]

end Exact

def width (s : Source) : Nat := s.stop.toNat - s.start.toNat

/-- These bundles of one size lie one behind the other and cover the bytes from `offset` to `stop`
of a source. -/
structure Covered (s : Source) (size offset stop : UInt64) (bundles : List Source) : Prop where
  alike : ∀ b ∈ bundles, b = s.subrange s.path b.start b.stop
  nonempty : ∀ b ∈ bundles, b.start < b.stop
  first : bundles.head?.map start = some offset
  last : bundles.getLast?.map Source.stop = some stop
  contiguous : bundles.IsChain fun b c => b.stop = c.start
  whole : ∀ b ∈ bundles.dropLast, b.width = size.toNat
  rest : ∀ b ∈ bundles.getLast?, s.minBundleSize.toNat ≤ b.width ∧
    (b.width ≤ size.toNat ∨
      size.toNat ≤ b.width ∧ b.width < size.toNat + s.minBundleSize.toNat)

/-- A bundle takes all that is left if a rest would be too short, and else has the full size. -/
theorem bundleStop_cases (least size : UInt64) (h : offset < stop) :
    let cut := bundleStop least size offset stop
    (cut = stop ∧ (stop.toNat - offset.toNat ≤ size.toNat ∨
      size.toNat ≤ stop.toNat - offset.toNat ∧
        stop.toNat - offset.toNat < size.toNat + least.toNat)) ∨
    cut < stop ∧ cut.toNat - offset.toNat = size.toNat ∧ least.toNat ≤ stop.toNat - cut.toNat := by
  have hcut := toNat_cutOffset size h
  have hsub := UInt64.toNat_sub_of_le _ _ (cutOffset_le size h)
  rw [UInt64.lt_iff_toNat_lt] at h
  simp only [bundleStop]
  split <;> rename_i hleast <;> rw [UInt64.lt_iff_toNat_lt, hsub] at hleast
  · exact .inl ⟨rfl, by omega⟩
  · by_cases hend : stop.toNat ≤ offset.toNat + size.toNat
    · have hsame : cutOffset size offset stop = stop := UInt64.toNat_inj.1 (by omega)
      exact .inl ⟨hsame, by omega⟩
    · refine .inr ⟨?_, by omega, by omega⟩
      rw [UInt64.lt_iff_toNat_lt]
      omega

theorem covered_one (hlt : offset < stop) (hleast : s.minBundleSize.toNat ≤ stop.toNat - offset.toNat)
    (hsize : stop.toNat - offset.toNat ≤ size.toNat ∨ size.toNat ≤ stop.toNat - offset.toNat ∧
      stop.toNat - offset.toNat < size.toNat + s.minBundleSize.toNat) :
    s.Covered size offset stop [s.subrange s.path offset stop] where
  alike := by simp [subrange]
  nonempty := by simpa [subrange] using hlt
  first := rfl
  last := rfl
  contiguous := List.isChain_singleton _
  whole := by simp
  rest := by
    intro b hb
    obtain rfl : s.subrange s.path offset stop = b := by simpa using hb
    exact ⟨hleast, hsize⟩

theorem Covered.cons {cut : UInt64} {bundles : List Source} (h : s.Covered size cut stop bundles)
    (hlt : offset < cut) (hsize : cut.toNat - offset.toNat = size.toNat) :
    s.Covered size offset stop (s.subrange s.path offset cut :: bundles) := by
  obtain ⟨b, rest, rfl⟩ : ∃ b rest, bundles = b :: rest := by
    cases bundles with
    | nil => cases h.first
    | cons b rest => exact ⟨b, rest, rfl⟩
  have hstart : b.start = cut := Option.some.inj h.first
  constructor
  case alike =>
    intro b' hb
    rcases List.mem_cons.1 hb with rfl | hb
    · rfl
    · exact h.alike b' hb
  case nonempty =>
    intro b' hb
    rcases List.mem_cons.1 hb with rfl | hb
    · exact hlt
    · exact h.nonempty b' hb
  case first => rfl
  case last =>
    rw [List.getLast?_cons_cons]
    exact h.last
  case contiguous => exact List.isChain_cons_cons.2 ⟨hstart.symm, h.contiguous⟩
  case whole =>
    intro b' hb
    rw [List.dropLast_cons_cons] at hb
    rcases List.mem_cons.1 hb with rfl | hb
    · exact hsize
    · exact h.whole b' hb
  case rest =>
    intro b' hb
    rw [List.getLast?_cons_cons] at hb
    exact h.rest b' hb

/-- Cutting up a range that is long enough for a bundle covers it. -/
theorem covered_cutFrom (s : Source) (hsize : 0 < size) (hlt : offset < stop)
    (hleast : s.minBundleSize.toNat ≤ stop.toNat - offset.toNat) :
    s.Covered size offset stop (s.cutFrom size hsize offset stop) := by
  fun_induction cutFrom s size hsize offset stop with
  | case1 offset _ cut ih =>
    rcases bundleStop_cases s.minBundleSize size hlt with ⟨hcut, hwidth⟩ | ⟨hcut, hwidth, hrest⟩
    · change cut = stop at hcut
      rw [hcut, cutFrom, if_neg (UInt64.lt_irrefl stop)]
      exact covered_one hlt hleast hwidth
    · exact (ih hcut hrest).cons (lt_bundleStop _ hsize hlt) hwidth
  | case2 offset hnot => exact absurd hlt hnot

section Estimates

/-- The end of the file is looked up again only if it is the last offset there is. -/
theorem resolvedStop_subrange {cut : UInt64} (hstop : s.resolvedStop t = .ok stop) (hcut : cut ≤ stop) :
    (s.subrange s.path offset cut).resolvedStop t = .ok cut := by
  by_cases hlast : cut = unbounded
  · have hsame : stop = cut := by
      have hbound : unbounded.toNat = 2 ^ 64 - 1 := rfl
      have := stop.toNat_lt
      rw [UInt64.le_iff_toNat_le, hlast, hbound] at hcut
      rw [hlast, ← UInt64.toNat_inj, hbound]
      omega
    rw [hsame] at hstop
    by_cases hopen : s.stop = unbounded
    · rw [resolvedStop, if_pos hopen] at hstop
      rw [resolvedStop]
      exact (if_pos hlast).trans hstop
    · rw [resolvedStop, if_neg hopen] at hstop
      exact absurd ((Except.ok.inj hstop).trans hlast) hopen
  · exact if_neg hlast

theorem estimatedSize_of_file (hmode : s.mode = .file) (hstop : s.resolvedStop t = .ok stop) :
    ∃ size, s.estimatedSize t = .ok size ∧ size.toNat = stop.toNat - s.start.toNat := by
  refine ⟨if s.start < stop then stop - s.start else 0, ?_, ?_⟩
  · simp only [estimatedSize, hmode, hstop]
    rfl
  · split
    · next hlt => exact UInt64.toNat_sub_of_le _ _ (UInt64.le_of_lt hlt)
    · next hle =>
      rw [UInt64.lt_iff_toNat_lt] at hle
      change 0 = _
      omega

/-- Ranges that lie one behind the other end by the last stop, and their widths add up. -/
theorem widths_of_contiguous {bundles : List Source} (hnonempty : ∀ b ∈ bundles, b.start < b.stop)
    (hcontiguous : bundles.IsChain fun b c => b.stop = c.start)
    (hfirst : bundles.head?.map start = some offset)
    (hlast : bundles.getLast?.map Source.stop = some stop) :
    offset < stop ∧ (∀ b ∈ bundles, b.stop ≤ stop) ∧
      (bundles.map width).sum = stop.toNat - offset.toNat := by
  induction bundles generalizing offset with
  | nil => cases hfirst
  | cons b rest ih =>
    obtain rfl : b.start = offset := Option.some.inj hfirst
    have hb := hnonempty b List.mem_cons_self
    cases rest with
    | nil =>
      obtain rfl : b.stop = stop := Option.some.inj hlast
      exact ⟨hb, by simp, by simp [width]⟩
    | cons c rest =>
      obtain ⟨hnext, hcontiguous⟩ := List.isChain_cons_cons.1 hcontiguous
      rw [List.getLast?_cons_cons] at hlast
      obtain ⟨hlt, hle, hsum⟩ := ih (fun b' hb' => hnonempty b' (List.mem_cons_of_mem b hb'))
        hcontiguous rfl hlast
      rw [← hnext] at hlt hsum
      refine ⟨UInt64.lt_trans hb hlt, List.forall_mem_cons.2 ⟨UInt64.le_of_lt hlt, hle⟩, ?_⟩
      rw [List.map_cons, List.sum_cons, hsum, width]
      rw [UInt64.lt_iff_toNat_lt] at hb hlt
      omega

/-- The estimates of bundles are their widths. -/
theorem estimates_of_covered {bundles : List Source} (hstop : s.resolvedStop t = .ok stop)
    (h : ∀ b ∈ bundles, b = s.subrange s.path b.start b.stop ∧ b.stop ≤ stop) :
    ∃ sizes, bundles.mapM (fun b => b.estimatedSize t) = .ok sizes ∧
      sizes.map UInt64.toNat = bundles.map width := by
  induction bundles with
  | nil => exact ⟨[], rfl, rfl⟩
  | cons b rest ih =>
    obtain ⟨hb, hle⟩ := h b List.mem_cons_self
    obtain ⟨sizes, hrest, hsizes⟩ := ih fun b' hb' => h b' (List.mem_cons_of_mem b hb')
    have hresolved : b.resolvedStop t = .ok b.stop := by
      rw [hb]
      exact resolvedStop_subrange hstop hle
    obtain ⟨size, hrun, hsize⟩ := estimatedSize_of_file (by rw [hb]; rfl) hresolved
    refine ⟨size :: sizes, ?_, ?_⟩
    · rw [List.mapM_cons, hrun, hrest]
      rfl
    · rw [List.map_cons, List.map_cons, hsizes, hsize]
      rfl

end Estimates

theorem bundles_of_file (hmode : s.mode = .file) (hvalid : s.validate = .ok ()) (desired : UInt64) :
    s.bundles t desired = s.cutRange t desired := by
  rw [bundles, hvalid]
  simp only [hmode]
  rfl

theorem short_iff : stop ≤ offset ∨ stop - offset ≤ size ↔
    stop.toNat - offset.toNat ≤ size.toNat := by
  rcases UInt64.le_or_lt stop offset with hle | hlt
  · have hnat := UInt64.le_iff_toNat_le.1 hle
    constructor
    · intro
      omega
    · intro
      exact .inl hle
  · have hnot : ¬stop ≤ offset := UInt64.not_le.2 hlt
    rw [UInt64.le_iff_toNat_le (a := stop - offset), UInt64.toNat_sub_of_le _ _ (UInt64.le_of_lt hlt)]
    exact or_iff_right hnot

/-- A range that is empty or no longer than a bundle is not cut. -/
theorem cutRange_short {desired : UInt64} (hstop : s.resolvedStop t = .ok stop)
    (h : stop ≤ s.start ∨ stop - s.start ≤ s.bundleSize desired) : s.cutRange t desired = .ok [s] := by
  simp only [cutRange, hstop, bind, Except.bind, h, if_true]
  rfl

theorem cutRange_long {desired : UInt64} (hstop : s.resolvedStop t = .ok stop)
    (h : ¬(stop ≤ s.start ∨ stop - s.start ≤ s.bundleSize desired)) :
    s.cutRange t desired =
      .ok (s.cutFrom (s.bundleSize desired) (s.bundleSize_pos desired) s.start stop) := by
  simp only [cutRange, hstop, bind, Except.bind, h, if_false]
  rfl

theorem minBundleSize_le_bundleSize (s : Source) (desired : UInt64) :
    s.minBundleSize ≤ s.bundleSize desired := by
  have hmax : ∀ a b : UInt64, a ≤ max a b ∧ b ≤ max a b := fun a b => by
    change a ≤ (if a ≤ b then b else a) ∧ b ≤ if a ≤ b then b else a
    split
    · exact ⟨‹a ≤ b›, UInt64.le_refl b⟩
    · exact ⟨UInt64.le_refl a, UInt64.le_of_lt (UInt64.not_le.1 ‹¬a ≤ b›)⟩
  exact UInt64.le_trans (hmax _ _).2 (hmax _ _).1

/-- Cutting a range of a file into bundles uses no sum and no difference that wraps, and fails only
where the end of the file cannot be looked up. A range that is empty or no longer than a bundle is
its own and only bundle. Any other is covered by its bundles. The sizes estimated for the bundles
add up to the size estimated for the range. -/
theorem bundles_cover_range (hmode : s.mode = .file) (hvalid : s.validate = .ok ())
    (desired : UInt64) :
    s.cutRange? t desired = some (s.bundles t desired) ∧
      (∀ cause, s.resolvedStop t = .error cause → s.bundles t desired = .error cause) ∧
      ∀ stop, s.resolvedStop t = .ok stop →
        ∃ bundles, s.bundles t desired = .ok bundles ∧
          (stop ≤ s.start ∨ stop.toNat - s.start.toNat ≤ (s.bundleSize desired).toNat →
            bundles = [s]) ∧
          (s.start < stop → (s.bundleSize desired).toNat < stop.toNat - s.start.toNat →
            s.Covered (s.bundleSize desired) s.start stop bundles) ∧
          ∃ sizes total, bundles.mapM (fun b => b.estimatedSize t) = .ok sizes ∧
            s.estimatedSize t = .ok total ∧ (sizes.map UInt64.toNat).sum = total.toNat := by
  rw [bundles_of_file hmode hvalid]
  refine ⟨cutRange?_eq s t desired, fun cause hcause => ?_, fun stop hstop => ?_⟩
  · rw [cutRange, hcause]
    rfl
  · obtain ⟨total, htotal, hwidth⟩ := estimatedSize_of_file hmode hstop
    by_cases hshort : stop.toNat - s.start.toNat ≤ (s.bundleSize desired).toNat
    · refine ⟨[s], cutRange_short hstop (short_iff.2 hshort), fun _ => rfl, ?_, [total], total, ?_,
        htotal, ?_⟩
      · intro _ hlong
        exact absurd hshort (Nat.not_le.2 hlong)
      · rw [List.mapM_cons, htotal]
        rfl
      · simp
    · have hlt : s.start < stop := by
        rw [UInt64.lt_iff_toNat_lt]
        omega
      have hleast := UInt64.le_iff_toNat_le.1 (s.minBundleSize_le_bundleSize desired)
      have hcovered := s.covered_cutFrom (s.bundleSize_pos desired) hlt (by omega)
      obtain ⟨-, hends, hsum⟩ := widths_of_contiguous hcovered.nonempty hcovered.contiguous
        hcovered.first hcovered.last
      obtain ⟨sizes, hrun, hsizes⟩ := estimates_of_covered hstop fun b hb =>
        ⟨hcovered.alike b hb, hends b hb⟩
      refine ⟨_, cutRange_long hstop (mt short_iff.1 hshort), ?_, fun _ _ => hcovered, sizes, total,
        hrun, htotal, ?_⟩
      · rintro (hempty | hwithin)
        · exact absurd hlt (UInt64.not_lt.2 hempty)
        · exact absurd hwithin hshort
      · rw [hsizes, hwidth]
        exact hsum

def farRange : Source :=
  ((ofPattern "birds").withMinBundleSize 30).subrange "birds" 0xffffffffffffff9a 0xfffffffffffffffe

/-- Of two and a half bundles the half is too short. -/
theorem bundles_cover_farRange : ∃ bundles, farRange.bundles {} 40 = .ok bundles ∧
    farRange.cutRange? {} 40 = some (.ok bundles) ∧
    farRange.Covered 40 0xffffffffffffff9a 0xfffffffffffffffe bundles ∧
    bundles.map width = [40, 60] := by
  obtain ⟨hexact, -, hok⟩ := bundles_cover_range (s := farRange) (t := {}) rfl (by decide) 40
  obtain ⟨bundles, hrun, -, hcovered, -⟩ := hok 0xfffffffffffffffe rfl
  refine ⟨bundles, hrun, hrun ▸ hexact, hcovered (by decide) (by decide), ?_⟩
  have hcut : farRange.bundles {} 40 = .ok [farRange.subrange "birds" 0xffffffffffffff9a
      0xffffffffffffffc2, farRange.subrange "birds" 0xffffffffffffffc2 0xfffffffffffffffe] := by
    change Except.ok (farRange.cutFrom (farRange.bundleSize 40) _ _ _) = _
    rw [cutFrom, if_pos (by decide)]
    dsimp only
    rw [cutFrom, if_pos (by decide)]
    dsimp only
    rw [cutFrom, if_neg (by decide)]
    rfl
  rw [hcut] at hrun
  cases hrun
  decide

end Source
end BlockContainer
