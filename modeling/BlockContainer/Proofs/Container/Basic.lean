import BlockContainer.Block.Reader
import BlockContainer.Proofs.Block.Framing
import BlockContainer.Proofs.Header.Reading

/-! # Container files

A container is a file with the header, the blocks and the records that a reader is to find
in it. Its blocks stand one behind the other from the header to the end of the file, and
what unpacking and decoding make of them is part of what is known.
-/
namespace BlockContainer

variable {α : Type}

theorem toNat_max (a b : UInt64) : (max a b).toNat = max a.toNat b.toNat := by
  change (if a ≤ b then b else a).toNat = if a.toNat ≤ b.toNat then b.toNat else a.toNat
  simp only [UInt64.le_iff_toNat_le]
  split <;> rfl

theorem toNat_min (a b : UInt64) : (min a b).toNat = min a.toNat b.toNat := by
  change (if a ≤ b then a else b).toNat = if a.toNat ≤ b.toNat then a.toNat else b.toNat
  simp only [UInt64.le_iff_toNat_le]
  split <;> rfl

/-- The decoder delivers these records one after another. -/
def Decodes (decoding : Decoding α) : Decoder → List α → Prop
  | _, [] => True
  | d, record :: records => ∃ d', decoding d = .ok record d' ∧ Decodes decoding d' records

instance decidableDecodes [DecidableEq α] (decoding : Decoding α) :
    (d : Decoder) → (records : List α) → Decidable (Decodes decoding d records)
  | _, [] => isTrue trivial
  | d, record :: records =>
    match h : decoding d with
    | .error _ _ => isFalse fun ⟨_, hrun, _⟩ => by cases h.symm.trans hrun
    | .ok found d' =>
      match decidableDecodes decoding d' records with
      | isFalse hrest => isFalse fun ⟨_, hrun, hdecodes⟩ => by
        cases h.symm.trans hrun
        exact hrest hdecodes
      | isTrue hrest =>
        if hfound : found = record then isTrue ⟨d', hfound ▸ h, hrest⟩
        else isFalse fun ⟨_, hrun, _⟩ => by
          cases h.symm.trans hrun
          exact hfound rfl

structure PlacedBlock (α : Type) where
  offset : Nat
  size : Nat
  block : Block
  records : List α

namespace PlacedBlock

def stop (b : PlacedBlock α) : Nat := b.offset + b.size

/-- The payload holds the records that are declared. One that declares none is not unpacked. -/
structure Holds (codec : Codec) (decoding : Decoding α) (b : PlacedBlock α) : Prop where
  count : b.block.recordCount.toInt = b.records.length
  unpacks : b.records = [] ∨ ∃ data, codec.decompress b.block.payload = .ok data ∧
    Decodes decoding (.ofBytes data) b.records

def inRange (start stop : Nat) (blocks : List (PlacedBlock α)) : List (PlacedBlock α) :=
  blocks.filter fun b => start ≤ b.offset ∧ b.offset < stop

variable {start cut stop : Nat} {blocks : List (PlacedBlock α)}

theorem inRange_eq_nil (h : ∀ b ∈ blocks, start ≤ b.offset → stop ≤ b.offset) :
    inRange start stop blocks = [] := by
  apply List.filter_eq_nil_iff.2
  intro b hb
  have := h b hb
  simp only [decide_eq_true_eq]
  omega

/-- The start of a range can be moved over bytes in which no block starts. -/
theorem inRange_skip (h : ∀ b ∈ blocks, start ≤ b.offset ↔ cut ≤ b.offset) :
    inRange start stop blocks = inRange cut stop blocks := by
  apply List.filter_congr
  intro b hb
  simp only [h b hb]

theorem inRange_append (hsorted : blocks.Pairwise fun a b => a.offset < b.offset)
    (hstart : start ≤ cut) (hstop : cut ≤ stop) :
    inRange start stop blocks = inRange start cut blocks ++ inRange cut stop blocks := by
  induction blocks with
  | nil => rfl
  | cons b rest ih =>
    obtain ⟨hfirst, hrest⟩ := List.pairwise_cons.1 hsorted
    by_cases hcut : b.offset < cut
    · have hout : ¬(cut ≤ b.offset ∧ b.offset < stop) := by omega
      have hin : (start ≤ b.offset ∧ b.offset < stop) ↔ (start ≤ b.offset ∧ b.offset < cut) := by
        omega
      have ih := ih hrest
      simp only [inRange, List.filter_cons, hout, hin, decide_false] at ih ⊢
      rw [ih]
      split <;> rfl
    · have hnone : inRange start cut (b :: rest) = [] := by
        apply inRange_eq_nil
        intro b' hb' _
        rcases List.mem_cons.1 hb' with rfl | hb'
        · omega
        · have := hfirst b' hb'
          omega
      rw [hnone, List.nil_append]
      apply inRange_skip
      intro b' hb'
      have hle : b.offset ≤ b'.offset := by
        rcases List.mem_cons.1 hb' with rfl | hb'
        · exact Nat.le_refl _
        · exact Nat.le_of_lt (hfirst b' hb')
      omega

end PlacedBlock

/-- The blocks stand one behind the other from the offset to the end of the content. -/
def Chained (content : Bytes) (marker : SyncMarker) : Nat → List (PlacedBlock α) → Prop
  | offset, [] => offset = content.length
  | offset, b :: rest => b.offset = offset ∧
      (∃ s, Block.read (content.length - offset) marker
        ((InputStream.ofBytes .file content).seek offset) = .ok (b.block, b.size) s) ∧
      Chained content marker b.stop rest

namespace Chained

variable {content : Bytes} {marker : SyncMarker} {offset : Nat} {b : PlacedBlock α}
variable {blocks rest : List (PlacedBlock α)}

/-- Where a block of the chain stands, there are bytes that spell it. -/
theorem spelled (h : Chained content marker offset (b :: rest)) (hoffset : offset ≤ content.length)
    (hcontent : content.length < 2 ^ 63) :
    ∃ framing bytes t, Block.Spelled marker b.block framing bytes ∧
      content.drop offset = bytes ++ t ∧ bytes.length = b.size := by
  obtain ⟨-, ⟨s, hread⟩, -⟩ := h
  have hat : InputStream.At .file content offset
      ((InputStream.ofBytes .file content).seek offset) :=
    (InputStream.At.ofBytes _ _).seek_file (by omega)
  obtain ⟨framing, bytes, t, hspelled, hdrop, hsize, -⟩ := Block.spelled_of_read hat hread
  exact ⟨framing, bytes, t, hspelled, hdrop, hsize⟩

/-- A block takes some bytes of the content, and the last of them are the marker. -/
theorem stop_cons (h : Chained content marker offset (b :: rest)) (hoffset : offset ≤ content.length)
    (hcontent : content.length < 2 ^ 63) :
    offset < b.stop ∧ b.stop ≤ content.length ∧ marker.bytes <:+ content.take b.stop := by
  obtain ⟨framing, bytes, t, hspelled, hdrop, hsize⟩ := h.spelled hoffset hcontent
  have hlength := congrArg List.length hdrop
  rw [List.length_drop, List.length_append] at hlength
  have hpos := hspelled.framing_pos
  have hbytes := hspelled.length_eq
  rw [PlacedBlock.stop, h.1]
  refine ⟨by omega, by omega, ?_⟩
  rw [List.take_add, hdrop, ← hsize, List.take_left, hspelled.bytes_eq]
  exact (List.suffix_append _ _).trans ((List.suffix_append _ _).trans (List.suffix_append _ _))

theorem offset_le (h : Chained content marker offset blocks) (hoffset : offset ≤ content.length)
    (hcontent : content.length < 2 ^ 63) :
    ∀ b ∈ blocks, offset ≤ b.offset ∧ b.offset < content.length := by
  induction blocks generalizing offset with
  | nil => simp
  | cons b rest ih =>
    obtain ⟨hlt, hle, -⟩ := h.stop_cons hoffset hcontent
    intro b' hb'
    rcases List.mem_cons.1 hb' with rfl | hb'
    · rw [h.1]
      exact ⟨Nat.le_refl _, by omega⟩
    · have := ih h.2.2 hle b' hb'
      omega

theorem sorted (h : Chained content marker offset blocks) (hoffset : offset ≤ content.length)
    (hcontent : content.length < 2 ^ 63) : blocks.Pairwise fun a b => a.offset < b.offset := by
  induction blocks generalizing offset with
  | nil => exact .nil
  | cons b rest ih =>
    obtain ⟨hlt, hle, -⟩ := h.stop_cons hoffset hcontent
    refine .cons (fun b' hb' => ?_) (ih h.2.2 hle)
    have := (h.2.2.offset_le hle hcontent b' hb').1
    have := h.1
    omega

theorem marker_ends (h : Chained content marker offset blocks) (hoffset : offset ≤ content.length)
    (hcontent : content.length < 2 ^ 63) (hmarker : marker.bytes <:+ content.take offset) :
    ∀ b ∈ blocks, marker.bytes <:+ content.take b.offset := by
  induction blocks generalizing offset with
  | nil => simp
  | cons b rest ih =>
    obtain ⟨-, hle, hstop⟩ := h.stop_cons hoffset hcontent
    intro b' hb'
    rcases List.mem_cons.1 hb' with rfl | hb'
    · rwa [h.1]
    · exact ih h.2.2 hle hstop b' hb'

/-- The chain can be taken up at the end of each of its blocks. -/
theorem resume (h : Chained content marker offset blocks) (hoffset : offset ≤ content.length)
    (hcontent : content.length < 2 ^ 63) {e : Nat}
    (he : e = offset ∨ ∃ b ∈ blocks, e = b.stop) :
    ∃ passed ahead, blocks = passed ++ ahead ∧ (∀ b ∈ passed, b.offset < e) ∧
      Chained content marker e ahead := by
  induction blocks generalizing offset with
  | nil =>
    obtain rfl : e = offset := he.resolve_right (by simp)
    exact ⟨[], [], rfl, by simp, h⟩
  | cons b rest ih =>
    obtain ⟨hlt, hle, -⟩ := h.stop_cons hoffset hcontent
    have hb := h.1
    by_cases hfirst : e = offset
    · exact ⟨[], b :: rest, rfl, by simp, hfirst ▸ h⟩
    · obtain ⟨b', hb', rfl⟩ := he.resolve_left hfirst
      have hrest : b'.stop = b.stop ∨ ∃ b'' ∈ rest, b'.stop = b''.stop := by
        rcases List.mem_cons.1 hb' with rfl | hb'
        · exact .inl rfl
        · exact .inr ⟨b', hb', rfl⟩
      obtain ⟨passed, ahead, rfl, hpassed, hahead⟩ := ih h.2.2 hle hrest
      have hbound : b.stop ≤ b'.stop := by
        rcases List.mem_cons.1 hb' with rfl | hb'
        · exact Nat.le_refl _
        · have := (h.2.2.offset_le hle hcontent b' hb').1
          exact Nat.le_trans this (Nat.le_add_right _ _)
      refine ⟨b :: passed, ahead, rfl, fun b'' hb'' => ?_, hahead⟩
      rcases List.mem_cons.1 hb'' with rfl | hb''
      · omega
      · exact hpassed b'' hb''

end Chained

/-- A file whose header, blocks and records are as they should be. -/
structure Container (α : Type) where
  content : Bytes
  header : Header
  codec : Codec
  decoding : Decoding α
  blocks : List (PlacedBlock α)
  /-- Offsets of files have 63 bits. -/
  length_lt : content.length < 2 ^ 63
  header_read : ∃ s, Header.read { stream := .ofBytes .file content, header := {} } =
    .ok () { stream := s, header }
  codec_found : CodecRegistry.standard.create header.codec = .ok codec
  chained : Chained content header.marker header.size blocks
  holds : ∀ b ∈ blocks, b.Holds codec decoding

namespace Container

variable (c : Container α)

def records : List α := c.blocks.flatMap PlacedBlock.records

def recordsIn (start stop : Nat) : List α :=
  (PlacedBlock.inRange start stop c.blocks).flatMap PlacedBlock.records

/-- The marker stands in the file at the end of the header and of the blocks only. -/
def MarkersEndBlocks : Prop :=
  ∀ e ≤ c.content.length, c.header.marker.bytes <:+ c.content.take e →
    e = c.header.size ∨ ∃ b ∈ c.blocks, e = b.stop

instance : Decidable c.MarkersEndBlocks :=
  inferInstanceAs (Decidable (∀ e, e ≤ c.content.length →
    c.header.marker.bytes <:+ c.content.take e → e = c.header.size ∨ ∃ b ∈ c.blocks, e = b.stop))

theorem header_at : ∃ s, Header.read { stream := .ofBytes .file c.content, header := {} } =
      .ok () { stream := s, header := c.header } ∧
    InputStream.At .file c.content c.header.size s ∧ 16 ≤ c.header.size ∧
    c.header.size ≤ c.content.length ∧
    c.header.marker.bytes <:+ c.content.take c.header.size := by
  obtain ⟨s, hread⟩ := c.header_read
  exact ⟨s, hread, Header.at_of_read hread⟩

theorem header_le : 16 ≤ c.header.size ∧ c.header.size ≤ c.content.length := by
  obtain ⟨s, -, -, h⟩ := c.header_at
  exact ⟨h.1, h.2.1⟩

theorem offset_bounds : ∀ b ∈ c.blocks, c.header.size ≤ b.offset ∧ b.offset < c.content.length :=
  c.chained.offset_le c.header_le.2 c.length_lt

theorem sorted : c.blocks.Pairwise fun a b => a.offset < b.offset :=
  c.chained.sorted c.header_le.2 c.length_lt

theorem marker_ends : ∀ b ∈ c.blocks, c.header.marker.bytes <:+ c.content.take b.offset := by
  obtain ⟨s, -, -, -, hle, hmarker⟩ := c.header_at
  exact c.chained.marker_ends hle c.length_lt hmarker

theorem recordsIn_all : c.recordsIn 0 c.content.length = c.records := by
  have hall : PlacedBlock.inRange 0 c.content.length c.blocks = c.blocks :=
    List.filter_eq_self.2 fun b hb => by simpa using (c.offset_bounds b hb).2
  rw [recordsIn, hall, records]

variable {c} {start cut stop : Nat}

theorem recordsIn_append (hstart : start ≤ cut) (hstop : cut ≤ stop) :
    c.recordsIn start stop = c.recordsIn start cut ++ c.recordsIn cut stop := by
  rw [recordsIn, PlacedBlock.inRange_append c.sorted hstart hstop, List.flatMap_append]
  rfl

theorem recordsIn_skip (h : ∀ b ∈ c.blocks, start ≤ b.offset ↔ cut ≤ b.offset) :
    c.recordsIn start stop = c.recordsIn cut stop := by
  rw [recordsIn, PlacedBlock.inRange_skip h]
  rfl

theorem recordsIn_eq_nil (h : ∀ b ∈ c.blocks, start ≤ b.offset → stop ≤ b.offset) :
    c.recordsIn start stop = [] := by
  rw [recordsIn, PlacedBlock.inRange_eq_nil h]
  rfl

end Container
end BlockContainer
