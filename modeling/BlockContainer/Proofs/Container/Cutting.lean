import BlockContainer.Proofs.Block.Alignment
import BlockContainer.Proofs.Container.Assembly
import BlockContainer.Proofs.Container.Returning

/-! # Ranges between blocks

A range that starts where a block does, or at the end of the last one, is taken up right
there, wherever else in the file the marker stands. So the parts of a file that is put
together part by part can be read one by one.
-/
namespace BlockContainer

variable {α : Type} {c : Container α} {content : Bytes}

/-- A marker ends at the offset, and the blocks can be taken up behind it. -/
structure Container.Cut (c : Container α) (offset : Nat) : Prop where
  resumes : ∃ ahead, c.Resumes offset ahead
  marker_ends : c.header.marker.bytes <:+ c.content.take offset

/-- What comes behind the header of the container does not matter to the reading of it. -/
theorem Container.header_read_of_begins (c : Container α) (hbegins : c.content <+: content) :
    ∃ s, Header.read { stream := .ofBytes .file content, header := {} } =
      .ok () { stream := s, header := c.header } := by
  obtain ⟨s, hread⟩ := c.header_read
  exact Header.read_of_begins hbegins hread {}

theorem Container.recordsIn_zero (stop : Nat) :
    c.recordsIn 0 stop = c.recordsIn c.header.size stop :=
  recordsIn_skip fun b hb => ⟨fun _ => (c.offset_bounds b hb).1, fun _ => Nat.zero_le _⟩

namespace BlockReader

variable {t : FileTree} {r : BlockReader}

/-- Opening a file whose range begins at a cut of the container takes the reader there. -/
theorem openFile_from_cut {number : Nat} (h : c.content <+: content)
    (hentry : t.entry r.filename = .ok (.file number content)) (hlength : content.length < 2 ^ 63)
    (hstream : r.stream? = none) (hheader : r.header = {}) (hscan : 0 < r.scanSize)
    (hcut : c.Cut r.tracker.start.toNat) :
    ∃ s', openFile t r = .ok () { r with
        stream? := some s', file? := some number, header := c.header, codec? := some c.codec
        nextBlockStart := r.tracker.start } ∧
      InputStream.At .file content r.tracker.start.toNat s' := by
  obtain ⟨s, hread⟩ := c.header_read_of_begins h
  obtain ⟨ahead, hresumes⟩ := hcut.resumes
  have hends : c.header.marker.bytes <:+ content.take r.tracker.start.toNat := by
    obtain ⟨behind, rfl⟩ := h
    rw [List.take_append_of_le_length hresumes.le]
    exact hcut.marker_ends
  have hle : r.tracker.start.toNat ≤ content.length := Nat.le_trans hresumes.le h.length_le
  have hstart : r.tracker.start ≠ 0 := by
    intro hzero
    have hsixteen := hends.length_le
    rw [hzero, c.header.marker.length_eq] at hsixteen
    simp at hsixteen
  have hleast : IsLeast (c.header.marker.endsFrom content r.tracker.start.toNat)
      r.tracker.start.toNat :=
    ⟨SyncMarker.mem_endsFrom.2 ⟨Nat.le_refl _, hle, hends⟩,
      fun e he => (SyncMarker.mem_endsFrom.1 he).1⟩
  obtain ⟨next, stream, hlands, hstands, hwhere⟩ := lands_behind_marker
    (r := { r with
      stream? := some s, file? := some number, header := c.header, codec? := some c.codec })
    hlength rfl (Header.at_of_read hread).1 hstart
  rcases hwhere with hfound | ⟨hempty, -⟩
  · obtain rfl : next = r.tracker.start := UInt64.toNat_inj.1 (hfound.unique hleast)
    rw [openFile_of_entry hentry hstream hheader hread c.codec_found]
    exact ⟨stream, hlands r.scanSize hscan, hstands (Nat.lt_of_le_of_lt hle hlength)⟩
  · rw [hempty] at hleast
    exact absurd hleast.1 (Set.notMem_empty _)

theorem openFile_of_cut (h : Closed c t r) (hcut : c.Cut r.tracker.start.toNat)
    (hscan : 0 < r.scanSize) : ∃ r', openFile t r = .ok () r' ∧ Aligned c r.tracker r' := by
  obtain ⟨number, hentry⟩ := h.entry
  obtain ⟨ahead, hresumes⟩ := hcut.resumes
  obtain ⟨s, hopen, hs⟩ := openFile_from_cut (List.prefix_refl _) hentry c.length_lt h.stream_none
    h.header_none hscan hcut
  exact ⟨_, hopen, ⟨rfl, rfl, h.fileSize_eq, ⟨s, rfl, hs⟩, ahead, hresumes⟩, rfl, Nat.le_refl _,
    fun b _ hlt => hlt⟩

end BlockReader

namespace ContainerReader

/-- A reader of a range that starts with the file or at a cut returns the records of the blocks
that start in the range. -/
theorem returns_of_cut [RecordType α] {t : FileTree} {source : Source} {number : Nat}
    (hentry : t.entry source.path = .ok (.file number c.content))
    (hdecoding : RecordType.decoding source.binding c.header = .ok c.decoding) {scanSize : UInt64}
    (hscan : 0 < scanSize) (hcut : source.start = 0 ∨ c.Cut source.start.toNat)
    (hle : source.start.toNat ≤ source.stop.toNat) (hstop : source.stop.toNat ≤ c.content.length) :
    ∃ r : ContainerReader α, create t source scanSize = .ok r ∧
      Returns (start t r) (c.recordsIn source.start.toNat source.stop.toNat) := by
  have hlength := c.length_lt
  let r : ContainerReader α := unstarted source scanSize c.content.length
  have hclosed : r.blocks.Closed c t :=
    ⟨⟨number, hentry⟩, rfl, rfl, rfl, Nat.le_trans hle hstop⟩
  have hopen : ∃ blocks, BlockReader.openFile t r.blocks = .ok () blocks ∧
      BlockReader.Aligned c r.blocks.tracker blocks := by
    rcases hcut with hzero | hcut
    · exact BlockReader.openFile_of_closed hclosed (.inl hzero)
    · exact BlockReader.openFile_of_cut hclosed hcut (UInt64.lt_iff_toNat_lt.1 hscan)
  obtain ⟨blocks, hopen, haligned⟩ := hopen
  obtain ⟨r', hbegin, -, howes⟩ := begin_of_aligned rfl rfl rfl hdecoding hopen haligned
  have hend : r.blocks.tracker.stop.toNat = source.stop.toNat := by
    change (max source.start (min source.stop (UInt64.ofNat c.content.length))).toNat = _
    rw [toNat_max, toNat_min, UInt64.toNat_ofNat']
    omega
  rw [← hend]
  exact ⟨r, create_of_entry hentry scanSize, returns_of_begin hbegin howes⟩

end ContainerReader

variable {marker : SyncMarker}

namespace Portion

theorem length_allBytes_cons (p : Portion α) (rest : List (Portion α)) :
    (allBytes marker (p :: rest)).length =
      (p.block.toBytes marker).length + (allBytes marker rest).length := by
  rw [allBytes, List.flatMap_cons, List.length_append]
  rfl

theorem placed_append (offset : Nat) (l m : List (Portion α)) :
    placed marker offset (l ++ m) =
      placed marker offset l ++ placed marker (offset + (allBytes marker l).length) m := by
  induction l generalizing offset with
  | nil => rfl
  | cons p rest ih =>
    rw [List.cons_append, placed, ih, length_allBytes_cons, Nat.add_assoc, placed, List.cons_append]

theorem placed_bounds {offset : Nat} {portions : List (Portion α)} :
    ∀ b ∈ placed marker offset portions,
      offset ≤ b.offset ∧ b.offset < offset + (allBytes marker portions).length := by
  induction portions generalizing offset with
  | nil => simp [placed]
  | cons p rest ih =>
    intro b hb
    have hblock := p.block.length_toBytes_pos marker
    rw [length_allBytes_cons]
    rcases List.mem_cons.1 hb with rfl | hb
    · exact ⟨Nat.le_refl _, Nat.lt_add_of_pos_right (by omega)⟩
    · have := ih b hb
      omega

/-- The blocks that start in the bytes of some portions are those of these portions. -/
theorem inRange_placed (offset : Nat) (front middle back : List (Portion α)) :
    PlacedBlock.inRange (offset + (allBytes marker front).length)
        (offset + (allBytes marker front).length + (allBytes marker middle).length)
        (placed marker offset (front ++ middle ++ back)) =
      placed marker (offset + (allBytes marker front).length) middle := by
  have hlength : (allBytes marker (front ++ middle)).length =
      (allBytes marker front).length + (allBytes marker middle).length := by
    rw [allBytes, List.flatMap_append, List.length_append]
    rfl
  rw [placed_append, placed_append, hlength, ← Nat.add_assoc]
  generalize hstart : offset + (allBytes marker front).length = start
  generalize hstop : start + (allBytes marker middle).length = stop
  have hfront : PlacedBlock.inRange start stop (placed marker offset front) = [] :=
    PlacedBlock.inRange_eq_nil fun b hb _ => by
      have := placed_bounds b hb
      omega
  have hback : PlacedBlock.inRange start stop (placed marker stop back) = [] :=
    PlacedBlock.inRange_eq_nil fun b hb _ => (placed_bounds b hb).1
  have hmiddle : PlacedBlock.inRange start stop (placed marker start middle) =
      placed marker start middle :=
    List.filter_eq_self.2 fun b hb => decide_eq_true (hstop ▸ placed_bounds b hb)
  rw [PlacedBlock.inRange] at hfront hback hmiddle ⊢
  rw [List.filter_append, List.filter_append, hfront, hmiddle, hback, List.nil_append,
    List.append_nil]

/-- Where portions are put behind a marker, a marker ends behind them. -/
theorem marker_ends_allBytes {front : Bytes} (h : marker.bytes <:+ front)
    (portions : List (Portion α)) : marker.bytes <:+ front ++ allBytes marker portions := by
  induction portions generalizing front with
  | nil => rwa [allBytes, List.flatMap_nil, List.append_nil]
  | cons p rest ih =>
    have hblock : marker.bytes <:+ front ++ p.block.toBytes marker := by
      rw [Block.toBytes_eq]
      exact (List.suffix_append _ _).trans ((List.suffix_append _ _).trans (List.suffix_append _ _))
    rw [allBytes, List.flatMap_cons, ← List.append_assoc]
    exact ih hblock

end Portion

namespace Assembly

variable {a : Assembly α} {front middle back : List (Portion α)}

/-- Behind the header and any of the portions there is a cut. -/
theorem cut_of_append (h : a.Sound) (hportions : a.portions = front ++ back) :
    (a.container h).Cut (a.header.toBytes.length +
      (Portion.allBytes a.header.marker front).length) := by
  have hcontent : a.content = a.header.toBytes ++ Portion.allBytes a.header.marker front ++
      Portion.allBytes a.header.marker back := by
    rw [content, hportions, Portion.allBytes, List.flatMap_append, ← List.append_assoc]
    rfl
  have hdrop : a.content.drop (a.header.toBytes.length +
      (Portion.allBytes a.header.marker front).length) =
        Portion.allBytes a.header.marker back := by
    rw [hcontent, ← List.length_append, List.drop_left]
  have hlength := congrArg List.length hcontent
  rw [List.length_append, List.length_append] at hlength
  refine ⟨⟨_, Portion.chained_placed h.length_lt (by omega)
    (fun p hp => h.portions p (by simp [hportions, hp])) hdrop, _, ?_,
    fun b hb => (Portion.placed_bounds b hb).2⟩, ?_⟩
  · change Portion.placed _ _ a.portions = _
    rw [hportions, Portion.placed_append]
    rfl
  · change _ <:+ a.content.take _
    rw [hcontent, ← List.length_append, List.take_left]
    apply Portion.marker_ends_allBytes
    rw [Header.toBytes_eq, ← List.append_assoc (Piece.allBytes _), ← List.append_assoc]
    exact List.suffix_append _ _

theorem recordsIn_of_append (h : a.Sound) (hportions : a.portions = front ++ middle ++ back) :
    (a.container h).recordsIn
        (a.header.toBytes.length + (Portion.allBytes a.header.marker front).length)
        (a.header.toBytes.length + (Portion.allBytes a.header.marker front).length +
          (Portion.allBytes a.header.marker middle).length) =
      middle.flatMap Portion.records := by
  rw [Container.recordsIn]
  change (PlacedBlock.inRange _ _ (Portion.placed _ _ a.portions)).flatMap _ = _
  rw [hportions, Portion.inRange_placed, Portion.records_placed]

end Assembly
end BlockContainer
