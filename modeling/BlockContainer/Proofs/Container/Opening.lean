import BlockContainer.Proofs.Block.Opening
import BlockContainer.Proofs.Container.Basic

/-! # Opening a range of a container

A reader that opens a range comes to stand at the first block that starts in it, if the
marker stands in the file at the ends of blocks only, or at the first block of all, if the
range starts where the file does.
-/
namespace BlockContainer

variable {α : Type}

namespace Container

variable {c : Container α}

/-- The chain of blocks can be taken up at the offset, and these are the blocks from there. -/
def Resumes (c : Container α) (offset : Nat) (ahead : List (PlacedBlock α)) : Prop :=
  Chained c.content c.header.marker offset ahead ∧
    ∃ passed, c.blocks = passed ++ ahead ∧ ∀ b ∈ passed, b.offset < offset

theorem resumes_header : c.Resumes c.header.size c.blocks :=
  ⟨c.chained, [], rfl, by simp⟩

theorem resumes_end : c.Resumes c.content.length [] :=
  ⟨rfl, c.blocks, by simp, fun b hb => (c.offset_bounds b hb).2⟩

theorem resumes_of_marker {e : Nat} (hmarkers : c.MarkersEndBlocks) (he : e ≤ c.content.length)
    (hends : c.header.marker.bytes <:+ c.content.take e) : ∃ ahead, c.Resumes e ahead := by
  obtain ⟨passed, ahead, hblocks, hpassed, hahead⟩ :=
    c.chained.resume c.header_le.2 c.length_lt (hmarkers e he hends)
  exact ⟨ahead, hahead, passed, hblocks, hpassed⟩

end Container

namespace BlockReader

/-- The reader stands at a block of the container, or at its end. -/
structure Standing (c : Container α) (r : BlockReader) : Prop where
  header_eq : r.header = c.header
  codec_eq : r.codec? = some c.codec
  fileSize_eq : r.fileSize = UInt64.ofNat c.content.length
  stream_at : ∃ s, r.stream? = some s ∧
    InputStream.At .file c.content r.nextBlockStart.toNat s
  resumes : ∃ ahead, c.Resumes r.nextBlockStart.toNat ahead

structure Closed (c : Container α) (t : FileTree) (r : BlockReader) : Prop where
  entry : ∃ number, t.entry r.filename = .ok (.file number c.content)
  fileSize_eq : r.fileSize = UInt64.ofNat c.content.length
  stream_none : r.stream? = none
  header_none : r.header = {}
  start_le : r.tracker.start.toNat ≤ c.content.length

variable {c : Container α} {t : FileTree} {r : BlockReader}

/-- Where a reader comes to stand that finds the first block of its range. -/
structure Aligned (c : Container α) (tracker : RangeTracker) (r : BlockReader) : Prop where
  standing : Standing c r
  tracker_eq : r.tracker = tracker
  start_le : tracker.start.toNat ≤ r.nextBlockStart.toNat
  passed : ∀ b ∈ c.blocks, b.offset < r.nextBlockStart.toNat → b.offset < tracker.start.toNat

structure Headed (c : Container α) (r : BlockReader) : Prop where
  header_eq : r.header = c.header
  codec_eq : r.codec? = some c.codec
  fileSize_eq : r.fileSize = UInt64.ofNat c.content.length
  stream_at : ∃ s, r.stream? = some s ∧ InputStream.At .file c.content c.header.size s

theorem align_of_start (h : Headed c r) (hstart : r.tracker.start = 0) :
    ∃ r', align r = .ok () r' ∧ Aligned c r.tracker r' := by
  obtain ⟨s, hstream, hat⟩ := h.stream_at
  have hlength := c.length_lt
  have hle := c.header_le
  have hnext : (UInt64.ofNat r.header.size).toNat = c.header.size := by
    rw [h.header_eq, UInt64.toNat_ofNat']
    omega
  have hseek := (InputStream.Near.of_at hat).at_clear.seek_file (n := c.header.size) (by omega)
  refine ⟨_, align_from_start hstream hstart, ⟨h.header_eq, h.codec_eq, h.fileSize_eq, ⟨_, rfl, ?_⟩,
    c.blocks, ?_⟩, rfl, ?_, ?_⟩
  · simp only [hnext]
    exact hseek
  · simp only [hnext]
    exact Container.resumes_header
  · simp [hstart]
  · intro b hb hlt
    have := (c.offset_bounds b hb).1
    simp only [hnext] at hlt
    omega

theorem align_of_range (h : Headed c r) (hstart : r.tracker.start ≠ 0)
    (hmarkers : c.MarkersEndBlocks) (hscan : 0 < r.scanSize)
    (hle : r.tracker.start.toNat ≤ c.content.length) :
    ∃ r', align r = .ok () r' ∧ Aligned c r.tracker r' := by
  obtain ⟨s, hstream, hat⟩ := h.stream_at
  have hlength := c.length_lt
  obtain ⟨next, stream, hlands, hstands, hwhere⟩ := lands_behind_marker hlength hstream hat hstart
  rw [h.header_eq] at hwhere
  have hbounds : r.tracker.start.toNat ≤ next.toNat ∧ next.toNat ≤ c.content.length := by
    rcases hwhere with hleast | ⟨-, hend⟩
    · have hmem := SyncMarker.mem_endsFrom.1 hleast.1
      exact ⟨hmem.1, hmem.2.1⟩
    · omega
  have hresumes : ∃ ahead, c.Resumes next.toNat ahead := by
    rcases hwhere with hleast | ⟨-, hend⟩
    · exact Container.resumes_of_marker hmarkers hbounds.2 (SyncMarker.mem_endsFrom.1 hleast.1).2.2
    · have hlast : next.toNat = c.content.length := by omega
      rw [hlast]
      exact ⟨[], Container.resumes_end⟩
  refine ⟨_, hlands r.scanSize hscan, ⟨h.header_eq, h.codec_eq, h.fileSize_eq,
    ⟨stream, rfl, hstands (by omega)⟩, hresumes⟩, rfl, hbounds.1, fun b hb hlt => ?_⟩
  -- A marker ends before each block, so none that starts in the range is passed.
  refine Nat.not_le.1 fun hafter => ?_
  have hmem := SyncMarker.mem_endsFrom.2
    ⟨hafter, Nat.le_of_lt (c.offset_bounds b hb).2, c.marker_ends b hb⟩
  rcases hwhere with hleast | ⟨hnone, -⟩
  · exact absurd (hleast.2 hmem) (Nat.not_le.2 hlt)
  · exact absurd (hnone ▸ hmem) (Set.notMem_empty _)

/-- Opening reads the header, and is left with looking for the first block. -/
theorem openFile_eq_align (h : Closed c t r) : ∃ headed, openFile t r = align headed ∧
    Headed c headed ∧ headed.tracker = r.tracker ∧ headed.scanSize = r.scanSize := by
  obtain ⟨number, hentry⟩ := h.entry
  obtain ⟨s, hread, hat, -⟩ := c.header_at
  exact ⟨_, openFile_of_entry hentry h.stream_none h.header_none hread c.codec_found,
    ⟨rfl, rfl, h.fileSize_eq, s, rfl, hat⟩, rfl, rfl⟩

def Findable (c : Container α) (r : BlockReader) : Prop :=
  r.tracker.start = 0 ∨ c.MarkersEndBlocks ∧ 0 < r.scanSize

/-- Opening finds the first block of the range. -/
theorem openFile_of_closed (h : Closed c t r) (hfind : Findable c r) :
    ∃ r', openFile t r = .ok () r' ∧ Aligned c r.tracker r' := by
  obtain ⟨headed, hopen, hheaded, htracker, hscanSize⟩ := openFile_eq_align h
  have hle := h.start_le
  rw [Findable, ← htracker, ← hscanSize] at hfind
  rw [hopen, ← htracker]
  rw [← htracker] at hle
  rcases hfind with hstart | ⟨hmarkers, hscan⟩
  · exact align_of_start hheaded hstart
  · by_cases hstart : headed.tracker.start = 0
    · exact align_of_start hheaded hstart
    · exact align_of_range hheaded hstart hmarkers hscan hle

end BlockReader
end BlockContainer
