import BlockContainer.Source.Basic

/-! # Cutting a source into bundles

A range is cut into bundles of one size. A rest that is shorter than the least bundle
size is added to the bundle before it. The files of a pattern are cut one by one.
-/
namespace BlockContainer.Source

def bundleSize (s : Source) (desired : UInt64) : UInt64 := max (max desired s.minBundleSize) 1

/-- Where a bundle is cut off, before the rest is looked at. -/
def cutOffset (size offset stop : UInt64) : UInt64 :=
  if stop - offset ≤ size then stop else offset + size

def bundleStop (least size offset stop : UInt64) : UInt64 :=
  let cut := cutOffset size offset stop
  if stop - cut < least then stop else cut

theorem toNat_cutOffset (size : UInt64) {offset stop : UInt64} (h : offset < stop) :
    (cutOffset size offset stop).toNat = min stop.toNat (offset.toNat + size.toNat) := by
  have := stop.toNat_lt
  have hsub := UInt64.toNat_sub_of_le _ _ (UInt64.le_of_lt h)
  rw [UInt64.lt_iff_toNat_lt] at h
  rw [cutOffset]
  split <;> rename_i hle <;> rw [UInt64.le_iff_toNat_le] at hle
  · omega
  · rw [UInt64.toNat_add]
    omega

theorem lt_bundleStop (least : UInt64) {size offset stop : UInt64} (hsize : 0 < size)
    (h : offset < stop) :
    offset < bundleStop least size offset stop := by
  simp only [bundleStop]
  split
  · exact h
  · have := toNat_cutOffset size h
    rw [UInt64.lt_iff_toNat_lt] at *
    have : (0 : UInt64).toNat = 0 := rfl
    omega

theorem bundleStop_le (least size : UInt64) {offset stop : UInt64} (h : offset < stop) :
    bundleStop least size offset stop ≤ stop := by
  simp only [bundleStop]
  split
  · exact UInt64.le_refl _
  · have := toNat_cutOffset size h
    rw [UInt64.le_iff_toNat_le]
    omega

def cutFrom (s : Source) (size : UInt64) (hsize : 0 < size) (offset stop : UInt64) : List Source :=
  if offset < stop then
    let cut := bundleStop s.minBundleSize size offset stop
    s.subrange s.path offset cut :: cutFrom s size hsize cut stop
  else []
termination_by stop.toNat - offset.toNat
decreasing_by
  have hlt := lt_bundleStop s.minBundleSize hsize ‹offset < stop›
  have hle := bundleStop_le s.minBundleSize size ‹offset < stop›
  simp only [UInt64.lt_iff_toNat_lt, UInt64.le_iff_toNat_le] at hlt hle
  omega

theorem bundleSize_pos (s : Source) (desired : UInt64) : 0 < s.bundleSize desired := by
  change 0 < if max desired s.minBundleSize ≤ 1 then 1 else max desired s.minBundleSize
  split
  · decide
  · next h => exact UInt64.lt_trans (by decide) (UInt64.not_le.1 h)

def cutRange (s : Source) (t : FileTree) (desired : UInt64) : Except Error (List Source) := do
  let stop ← s.resolvedStop t
  let size := s.bundleSize desired
  if stop ≤ s.start ∨ stop - s.start ≤ size then return [s]
  return s.cutFrom size (s.bundleSize_pos desired) s.start stop

def bundles (s : Source) (t : FileTree) (desired : UInt64) : Except Error (List Source) := do
  s.validate.mapError Error.configuration
  match s.mode with
  | .file => s.cutRange t desired
  | .pattern =>
    let cut ← (t.glob s.path).mapM fun path => do
      let file := s.subrange path 0 unbounded
      file.validate.mapError Error.configuration
      file.cutRange t desired
    return cut.flatten

end BlockContainer.Source
