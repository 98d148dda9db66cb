import BlockContainer.Proofs.Container.Opening
import BlockContainer.Proofs.Range.Arbitration
import BlockContainer.Proofs.Reader.Turns

/-! # The next block of a container

A reader that stands at a block is granted it if the block starts before its stop offset.
Reading it cannot fail and takes the reader to the block behind it.
-/
namespace BlockContainer

variable {α : Type} {c : Container α}

namespace Container

theorem Resumes.le {offset : Nat} {ahead : List (PlacedBlock α)} (h : c.Resumes offset ahead) :
    offset ≤ c.content.length := by
  obtain ⟨hchained, passed, hblocks, -⟩ := h
  cases ahead with
  | nil => exact Nat.le_of_eq hchained
  | cons b rest =>
    have := (c.offset_bounds b (by simp [hblocks])).2
    rw [← hchained.1]
    exact Nat.le_of_lt this

/-- Before the end of the file there is a block. -/
theorem Resumes.cons {offset : Nat} {ahead : List (PlacedBlock α)} (h : c.Resumes offset ahead)
    (hlt : offset < c.content.length) : ∃ b rest, ahead = b :: rest ∧ b.offset = offset := by
  cases ahead with
  | nil => exact absurd h.1 (Nat.ne_of_lt hlt)
  | cons b rest => exact ⟨b, rest, rfl, h.1.1⟩

theorem Resumes.mem_head {offset : Nat} {b : PlacedBlock α} {rest : List (PlacedBlock α)}
    (h : c.Resumes offset (b :: rest)) : b ∈ c.blocks := by
  obtain ⟨-, passed, hblocks, -⟩ := h
  simp [hblocks]

theorem Resumes.tail {offset : Nat} {b : PlacedBlock α} {rest : List (PlacedBlock α)}
    (h : c.Resumes offset (b :: rest)) :
    offset < b.stop ∧ b.stop ≤ c.content.length ∧ c.Resumes b.stop rest := by
  obtain ⟨hlt, hle, -⟩ := h.1.stop_cons h.le c.length_lt
  obtain ⟨hchained, passed, hblocks, hpassed⟩ := h
  refine ⟨hlt, hle, hchained.2.2, passed ++ [b], by simp [hblocks], fun b' hb' => ?_⟩
  have hb := hchained.1
  rcases List.mem_append.1 hb' with hb' | hb'
  · have := hpassed b' hb'
    omega
  · obtain rfl : b' = b := by simpa using hb'
    omega

/-- The blocks from the offset on are the ones ahead. -/
theorem Resumes.mem_iff {offset : Nat} {ahead : List (PlacedBlock α)} (h : c.Resumes offset ahead)
    {b : PlacedBlock α} (hb : b ∈ c.blocks) : offset ≤ b.offset ↔ b ∈ ahead := by
  have hle := h.le
  obtain ⟨hchained, passed, hblocks, hpassed⟩ := h
  constructor
  · intro hge
    rw [hblocks] at hb
    rcases List.mem_append.1 hb with hb | hb
    · have := hpassed b hb
      omega
    · exact hb
  · exact fun hb => (hchained.offset_le hle c.length_lt b hb).1

/-- Where the blocks are taken up inside the range, the records start with those of the
first block. -/
theorem Resumes.recordsIn_cons {offset stop : Nat} {b : PlacedBlock α}
    {rest : List (PlacedBlock α)} (h : c.Resumes offset (b :: rest)) (hstop : offset < stop) :
    c.recordsIn offset stop = b.records ++ c.recordsIn b.stop stop := by
  obtain ⟨hlt, hle, hrest, -⟩ := h.tail
  have hbounds := hrest.offset_le hle c.length_lt
  obtain ⟨hchained, passed, hblocks, hpassed⟩ := h
  have hb := hchained.1
  have hfront (start : Nat) (hstart : offset ≤ start) :
      PlacedBlock.inRange start stop passed = [] := by
    apply PlacedBlock.inRange_eq_nil
    intro b' hb' hin
    have := hpassed b' hb'
    omega
  have hskip : PlacedBlock.inRange offset stop rest = PlacedBlock.inRange b.stop stop rest := by
    apply PlacedBlock.inRange_skip
    intro b' hb'
    have := (hbounds b' hb').1
    omega
  have hin : PlacedBlock.inRange offset stop (b :: rest) =
      b :: PlacedBlock.inRange offset stop rest :=
    List.filter_cons_of_pos (by simpa [hb] using hstop)
  have hout : PlacedBlock.inRange b.stop stop (b :: rest) = PlacedBlock.inRange b.stop stop rest :=
    List.filter_cons_of_neg (by simp only [decide_eq_true_eq]; omega)
  have hjoin (start : Nat) : PlacedBlock.inRange start stop c.blocks =
      PlacedBlock.inRange start stop passed ++ PlacedBlock.inRange start stop (b :: rest) := by
    rw [hblocks]
    exact List.filter_append _ _
  rw [recordsIn, recordsIn, hjoin, hjoin, hfront _ (Nat.le_refl _), hfront _ (Nat.le_of_lt hlt),
    hin, hout, hskip]
  simp

end Container

namespace BlockReader

variable {r : BlockReader}

theorem Standing.withTracker (h : Standing c r) (tracker : RangeTracker) :
    Standing c { r with tracker } :=
  ⟨h.header_eq, h.codec_eq, h.fileSize_eq, h.stream_at, h.resumes⟩

theorem Standing.withDecoder (h : Standing c r) (decoder? : Option Decoder) :
    Standing c { r with decoder? } :=
  ⟨h.header_eq, h.codec_eq, h.fileSize_eq, h.stream_at, h.resumes⟩

theorem toNat_fileSize (h : Standing c r) : r.fileSize.toNat = c.content.length := by
  have := c.length_lt
  rw [h.fileSize_eq, UInt64.toNat_ofNat']
  omega

/-- The next block is granted if there is one and it starts before the stop offset. -/
theorem approach_of_standing (h : Standing c r)
    (horder : ∀ last ∈ r.tracker.last?, last ≤ r.nextBlockStart) :
    approach r = if r.nextBlockStart.toNat < c.content.length ∧ r.nextBlockStart < r.tracker.stop
      then .ok true { r with tracker := { r.tracker with last? := some r.nextBlockStart } }
      else .ok false { r with tracker := r.tracker.markDone } := by
  obtain ⟨s, hstream, -⟩ := h.stream_at
  have hopen : r.isOpen = true := by simp [isOpen, hstream]
  have hsize := toNat_fileSize h
  have hreport := RangeTracker.tryReturn_in_order true (fun _ => rfl) horder
  rw [approach, Runs.get_bind, Runs.ensure_bind hopen]
  by_cases hlt : r.nextBlockStart.toNat < c.content.length
  · have hsome : ¬r.fileSize ≤ r.nextBlockStart := by
      rw [UInt64.le_iff_toNat_le]
      omega
    rw [if_neg hsome, focus, hreport]
    by_cases hstop : r.nextBlockStart < r.tracker.stop
    · rw [if_neg (fun h => UInt64.not_le.2 hstop h.2), if_pos ⟨hlt, hstop⟩]
    · rw [if_pos ⟨rfl, UInt64.not_lt.1 hstop⟩, if_neg (fun h => hstop h.2)]
      rfl
  · have hnone : r.fileSize ≤ r.nextBlockStart := by
      rw [UInt64.le_iff_toNat_le]
      omega
    rw [if_pos hnone, if_neg (fun h => hlt h.1)]
    rfl

/-- Bytes that spell a block are read as the block, and the reader steps behind them. -/
theorem readBlock_at {content : Bytes} (hlength : content.length < 2 ^ 63) {s : InputStream}
    (hstream : r.stream? = some s) (hat : InputStream.At .file content r.nextBlockStart.toNat s)
    (hsize : r.fileSize = UInt64.ofNat content.length) {b : Block} {framing bytes t : Bytes}
    (hspelled : Block.Spelled r.header.marker b framing bytes)
    (hdrop : content.drop r.nextBlockStart.toNat = bytes ++ t) :
    (r.nextBlockStart + UInt64.ofNat bytes.length).toNat =
        r.nextBlockStart.toNat + bytes.length ∧
      ∃ s', readBlock r = .ok b { r with
          stream? := some s'
          recordCount := b.recordCount
          blockStart := r.nextBlockStart
          nextBlockStart := r.nextBlockStart + UInt64.ofNat bytes.length } ∧
        InputStream.At .file content (r.nextBlockStart.toNat + bytes.length) s' := by
  have hbytes := hspelled.length_eq
  have hall := congrArg List.length hdrop
  rw [List.length_drop, List.length_append] at hall
  have hfile : r.fileSize.toNat = content.length := by
    rw [hsize, UInt64.toNat_ofNat']
    omega
  have hremaining : (r.fileSize - r.nextBlockStart).toNat =
      content.length - r.nextBlockStart.toNat := by
    have hle : r.nextBlockStart ≤ r.fileSize := by
      rw [UInt64.le_iff_toNat_le]
      omega
    rw [UInt64.toNat_sub_of_le _ _ hle, hfile]
  have hroom : framing.length + b.payload.length ≤ (r.fileSize - r.nextBlockStart).toNat := by
    omega
  obtain ⟨f, s₁, s₂, -, hcount, hread₁, hread₂, hat₂⟩ := Block.parts_at hat hspelled hdrop hroom
  have hmoved : s₂.position - s.position = bytes.length := by
    rw [hat₂.position_eq, hat.position_eq]
    omega
  refine ⟨?_, s₂, ?_, hat₂⟩
  · rw [UInt64.toNat_add, UInt64.toNat_ofNat']
    omega
  · have hstart : r.stream = s := by simp [stream, hstream]
    have hsecond := onStream_of_ok Error.format
      (r := { r with stream? := some s₁, recordCount := b.recordCount }) rfl hread₂
    rw [readBlock, Runs.get_bind, Runs.bind_of_ok (onStream_of_ok _ hstream hread₁),
      Runs.modify_bind, hcount]
    apply (Runs.bind_of_ok hsecond).trans
    rw [hstart, ← hmoved]
    rfl

/-- What is read as a block is spelled where the reader stands, and it steps behind it. -/
theorem spelled_of_readBlock {content : Bytes} {s : InputStream} (hstream : r.stream? = some s)
    (hat : InputStream.At .file content r.nextBlockStart.toNat s) {b : Block} {r' : BlockReader}
    (h : readBlock r = .ok b r') :
    ∃ framing bytes t s', Block.Spelled r.header.marker b framing bytes ∧
      content.drop r.nextBlockStart.toNat = bytes ++ t ∧
      r' = { r with
        stream? := some s'
        recordCount := b.recordCount
        blockStart := r.nextBlockStart
        nextBlockStart := r.nextBlockStart + UInt64.ofNat bytes.length } ∧
      InputStream.At .file content (r.nextBlockStart.toNat + bytes.length) s' := by
  have hs : r.stream = s := by simp [stream, hstream]
  obtain ⟨_, _, hget, h⟩ := bind_eq_ok_iff.1 h
  cases hget
  obtain ⟨framing, _, hfirst, h⟩ := bind_eq_ok_iff.1 h
  obtain ⟨s₁, hframing, rfl⟩ := focus_eq_ok_iff.1 hfirst
  obtain ⟨_, _, hmodify, h⟩ := bind_eq_ok_iff.1 h
  cases hmodify
  obtain ⟨payload, _, hsecond, h⟩ := bind_eq_ok_iff.1 h
  obtain ⟨s₂, hbody, rfl⟩ := focus_eq_ok_iff.1 hsecond
  obtain ⟨_, _, hmodify, h⟩ := bind_eq_ok_iff.1 h
  cases hmodify
  cases h
  rw [hs] at hframing
  obtain ⟨framed, bytes, t, hspelled, hdrop, -, -, hat'⟩ :=
    Block.spelled_of_parts hat hframing hbody
  have hmoved : s₂.position - r.stream.position = bytes.length := by
    rw [hs, hat'.position_eq, hat.position_eq]
    omega
  refine ⟨framed, bytes, t, s₂, hspelled, hdrop, ?_, hat'⟩
  rw [← hmoved]
  rfl

/-- A block that is there is read, and the reader stands behind it. -/
theorem readBlock_of_standing (h : Standing c r) {b : PlacedBlock α}
    {rest : List (PlacedBlock α)} (hahead : c.Resumes r.nextBlockStart.toNat (b :: rest)) :
    ∃ r', readBlock r = .ok b.block r' ∧ Standing c r' ∧ r'.nextBlockStart.toNat = b.stop ∧
      r'.tracker = r.tracker ∧ r'.recordCount = b.block.recordCount := by
  obtain ⟨s, hstream, hat⟩ := h.stream_at
  obtain ⟨framing, bytes, t, hspelled, hdrop, hsize⟩ :=
    hahead.1.spelled hahead.le c.length_lt
  rw [← h.header_eq] at hspelled
  obtain ⟨hnext, s', hread, hat'⟩ :=
    readBlock_at c.length_lt hstream hat h.fileSize_eq hspelled hdrop
  have hstop : r.nextBlockStart.toNat + bytes.length = b.stop := by
    rw [PlacedBlock.stop, hahead.1.1, hsize]
  refine ⟨_, hread, ⟨h.header_eq, h.codec_eq, h.fileSize_eq, ⟨s', rfl, ?_⟩, rest, ?_⟩,
    hnext.trans hstop, rfl, rfl⟩
  · simp only [hnext]
    exact hat'
  · simp only [hnext, hstop]
    exact hahead.tail.2.2

theorem unpack_of_standing (h : Standing c r) {b : Block} {data : Bytes}
    (hdata : c.codec.decompress b.payload = .ok data) :
    unpack b r = .ok () { r with decoder? := some (.ofBytes data) } :=
  unpack_eq_ok_iff.2 ⟨c.codec, data, h.codec_eq, hdata, rfl⟩

end BlockReader
end BlockContainer
