import BlockContainer.Proofs.Block.Series
import BlockContainer.Proofs.Container.Basic
import BlockContainer.Proofs.Header.RoundTrip

/-! # Putting a container together

A header that is written down and blocks behind it make up a container, if the blocks hold
their records and can be written.
-/
namespace BlockContainer

def SyncMarker.counting : SyncMarker := ⟨(List.range 16).map UInt8.ofNat, rfl⟩

variable {α : Type} {codec : Codec} {decoding : Decoding α} {marker : SyncMarker}

structure Portion (α : Type) where
  block : Block
  records : List α

namespace Portion

def allBytes (marker : SyncMarker) (portions : List (Portion α)) : Bytes :=
  portions.flatMap fun p => p.block.toBytes marker

def placed (marker : SyncMarker) : (offset : Nat) → List (Portion α) → List (PlacedBlock α)
  | _, [] => []
  | offset, p :: rest =>
    ⟨offset, (p.block.toBytes marker).length, p.block, p.records⟩ ::
      placed marker (offset + (p.block.toBytes marker).length) rest

theorem records_placed (offset : Nat) (portions : List (Portion α)) :
    (placed marker offset portions).flatMap PlacedBlock.records =
      portions.flatMap Portion.records := by
  induction portions generalizing offset with
  | nil => rfl
  | cons p rest ih => rw [placed, List.flatMap_cons, ih, List.flatMap_cons]

/-- The block holds the records, and it can be written. -/
structure Sound (codec : Codec) (decoding : Decoding α) (p : Portion α) : Prop where
  count : p.block.recordCount.toInt = p.records.length
  unpacks : p.records = [] ∨ ∃ data, codec.decompress p.block.payload = .ok data ∧
    Decodes decoding (.ofBytes data) p.records
  payload_lt : p.block.payload.length < 2 ^ 63

theorem holds_placed (offset : Nat) {portions : List (Portion α)}
    (h : ∀ p ∈ portions, p.Sound codec decoding) :
    ∀ b ∈ placed marker offset portions, b.Holds codec decoding := by
  induction portions generalizing offset with
  | nil => simp [placed]
  | cons p rest ih =>
    intro b hb
    rcases List.mem_cons.1 hb with rfl | hb
    · have hp := h p (by simp)
      exact ⟨hp.count, hp.unpacks⟩
    · exact ih _ (fun p hp => h p (by simp [hp])) b hb

theorem chained_placed {content : Bytes} (hcontent : content.length < 2 ^ 63) {offset : Nat}
    (hoffset : offset ≤ content.length) {portions : List (Portion α)}
    (hportions : ∀ p ∈ portions, p.Sound codec decoding)
    (h : content.drop offset = allBytes marker portions) :
    Chained content marker offset (placed marker offset portions) := by
  induction portions generalizing offset with
  | nil =>
    have hlength := congrArg List.length h
    rw [List.length_drop] at hlength
    change content.length - offset = 0 at hlength
    change offset = content.length
    omega
  | cons p rest ih =>
    have hsound := hportions p (by simp)
    have hspelled := Block.spelled_toBytes (b := p.block) marker
      (by rw [hsound.count]; omega) hsound.payload_lt
    have hat : InputStream.At .file content offset
        ((InputStream.ofBytes .file content).seek offset) :=
      (InputStream.At.ofBytes _ _).seek_file (by omega)
    have hdrop : content.drop offset = p.block.toBytes marker ++ allBytes marker rest := h
    have hlength := congrArg List.length hdrop
    have hbytes := hspelled.length_eq
    rw [List.length_drop, List.length_append] at hlength
    obtain ⟨s, hread, -⟩ := Block.read_at hat hspelled hdrop (content.length - offset) (by omega)
    have hrest : content.drop (offset + (p.block.toBytes marker).length) =
        allBytes marker rest := by
      rw [← List.drop_drop, hdrop, List.drop_left]
    have hle : offset + (p.block.toBytes marker).length ≤ content.length := by omega
    exact ⟨rfl, ⟨s, hread⟩, ih hle (fun p hp => hportions p (by simp [hp])) hrest⟩

end Portion

structure Assembly (α : Type) where
  header : Header
  codec : Codec
  decoding : Decoding α
  portions : List (Portion α)

namespace Assembly

def content (a : Assembly α) : Bytes :=
  a.header.toBytes ++ Portion.allBytes a.header.marker a.portions

/-- The codec is the one that the header names, and all parts can be written and read. -/
structure Sound (a : Assembly α) : Prop where
  codec_found : CodecRegistry.standard.create a.header.codec = .ok a.codec
  portions : ∀ p ∈ a.portions, p.Sound a.codec a.decoding
  entries_lt : a.header.metadata.size < 2 ^ 63
  length_lt : a.content.length < 2 ^ 63

theorem Sound.header_read {a : Assembly α} (h : a.Sound) :
    ∃ s, Header.read { stream := .ofBytes .file a.content, header := {} } =
      .ok () { stream := s, header := { a.header with size := a.header.toBytes.length } } := by
  have hfits : a.header.metadata.Fits := by
    refine ⟨h.entries_lt, fun e he => ?_⟩
    have hentry := Header.entry_le_toBytes he
    have hlength := h.length_lt
    rw [content, List.length_append] at hlength
    exact ⟨by omega, by omega⟩
  obtain ⟨s, hread, -⟩ := Header.read_toBytes hfits (.ofBytes .file a.content) rfl {}
  exact ⟨s, hread⟩

def container (a : Assembly α) (h : a.Sound) : Container α where
  content := a.content
  header := { a.header with size := a.header.toBytes.length }
  codec := a.codec
  decoding := a.decoding
  blocks := Portion.placed a.header.marker a.header.toBytes.length a.portions
  length_lt := h.length_lt
  header_read := h.header_read
  codec_found := h.codec_found
  chained := by
    refine Portion.chained_placed h.length_lt ?_ h.portions (List.drop_left)
    rw [content, List.length_append]
    exact Nat.le_add_right _ _
  holds := Portion.holds_placed _ h.portions

theorem records_container (a : Assembly α) (h : a.Sound) :
    (a.container h).records = a.portions.flatMap Portion.records :=
  Portion.records_placed _ _

end Assembly
end BlockContainer
