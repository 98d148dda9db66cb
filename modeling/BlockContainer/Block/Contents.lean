import BlockContainer.Block.Reader

/-! # Contents of a container

All blocks that hold records, each with its count of records and its unpacked payload.
-/
namespace BlockContainer

namespace BlockReader

theorem left_unpack {b : Block} {r r' : BlockReader} (h : unpack b r = .ok () r') :
    left r' ≤ left r := by
  have : Consumes left 0 (unpack b) := by
    refine Consumes.bindZero (k := 0) Consumes.get fun r => ?_
    split
    · exact Consumes.throw _
    · exact Consumes.bindZero (k := 0) (Consumes.check _) fun _ =>
        Consumes.modify fun _ => Nat.le_refl _
  exact this h

theorem left_lt_of_readNext {r r' : BlockReader} (h : readNext r = .ok true r') :
    left r' < left r := by
  fun_induction readNext r with
  | case1 => cases h
  | case2 => cases h
  | case3 => cases h
  | case4 r r₁ h₁ b r₂ h₂ _ ih =>
    have := ih h
    have := consumes_approach h₁
    have := consumes_readBlock h₂
    omega
  | case5 => cases h
  | case6 r r₁ h₁ b r₂ h₂ _ r₃ h₃ =>
    have := consumes_approach h₁
    have := consumes_readBlock h₂
    have := left_unpack h₃
    cases h
    omega

def remainingBlocks (r : BlockReader) : Except Error (List (Int64 × Bytes)) :=
  match _ : readNext r with
  | .error e _ => .error e
  | .ok false _ => .ok []
  | .ok true r' => do
    let d ← r'.blockDecoder
    let rest ← remainingBlocks r'
    return (r'.recordCount, d.buffer) :: rest
termination_by left r
decreasing_by exact left_lt_of_readNext ‹_›

end BlockReader

def FileTree.blocks (t : FileTree) (path : Bytes) : Except Error (List (Int64 × Bytes)) := do
  let reader ← BlockReader.create t path 0 0xffffffffffffffff SyncMarker.defaultScanSize
  match BlockReader.openFile t reader with
  | .error e _ => .error e
  | .ok () reader => reader.remainingBlocks

end BlockContainer
