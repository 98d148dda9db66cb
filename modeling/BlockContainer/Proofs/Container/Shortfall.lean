import BlockContainer.Proofs.Container.Extension
import BlockContainer.Proofs.Record.Decoding

/-! # Blocks that hold less than they declare

A block declares how many records it holds. Where its payload cannot be unpacked, or fewer
records can be decoded from it, a reader returns those that can be decoded and then fails.
-/
namespace BlockContainer

variable {α : Type} {c : Container α} {content : Bytes}

/-- The payload of the block holds just these records, which are fewer than are declared. -/
structure Block.HoldsOnly (codec : Codec) (decoding : Decoding α) (b : Block) (records : List α) :
    Prop where
  count : records.length < b.recordCount.toInt
  unpacks : records = [] ∧ (∃ e, codec.decompress b.payload = .error e) ∨
    ∃ data, codec.decompress b.payload = .ok data ∧ DecodesOnly decoding (.ofBytes data) records

namespace ContainerReader

variable {r : ContainerReader α} {last : Turn} {decoding : Decoding α} {records : List α}

/-- From this call on the reader returns some of the records, not all, and then fails. -/
def ReturnsPart (result : EStateM.Result Error (ContainerReader α) Bool) (records : List α) :
    Prop :=
  ∃ n < records.length, ReturnsUntil Error.InBytes result (records.take n)

theorem ReturnsPart.of_single {result : EStateM.Result Error (ContainerReader α) Bool} {record : α}
    (h : ReturnsPart result [record]) : ∃ cause r', result = .error (.format cause) r' := by
  obtain ⟨n, hn, hreturns⟩ := h
  obtain rfl : n = 0 := Nat.lt_one_iff.1 hn
  cases result with
  | error e r' =>
    obtain ⟨cause, rfl⟩ := hreturns
    exact ⟨cause, r', rfl⟩
  | ok found r' => cases found <;> cases hreturns

theorem returnsUntil_in_block (hstarted : r.started = true)
    (hdecoding : r.decoding? = some decoding) {d : Decoder} (hd : r.blocks.decoder? = some d)
    (hcount : records.length < r.recordsLeft)
    (honly : DecodesOnly decoding d records) : ReturnsUntil Error.InBytes (advance r) records := by
  induction records generalizing r d with
  | nil =>
    obtain ⟨e, d', hrun⟩ := honly
    have hdecode := decodeOne_apply hdecoding hd
    rw [hrun] at hdecode
    rw [advance_busy hstarted (Nat.ne_of_gt hcount), Runs.bind_of_error hdecode]
    exact ⟨e, rfl⟩
  | cons record records ih =>
    obtain ⟨d', hrun, honly⟩ := honly
    have hdecode := decodeOne_apply hdecoding hd
    rw [hrun] at hdecode
    rw [List.length_cons] at hcount
    rw [advance_busy hstarted (by omega), Runs.bind_of_ok hdecode]
    exact ⟨rfl, ih hstarted hdecoding rfl (Nat.lt_sub_of_add_lt hcount) honly⟩

/-- A reader that was granted such a block returns what the block holds, and then fails. -/
theorem returnsUntil_of_short (h : Beyond c content r) (hlength : content.length < 2 ^ 63)
    {b : Block} {framing bytes : Bytes} (hspelled : Block.Spelled c.header.marker b framing bytes)
    (hbegins : bytes <+: content.drop c.content.length)
    (hholds : b.HoldsOnly c.codec c.decoding records) :
    ReturnsUntil Error.InBytes (turns .approached r) records := by
  obtain ⟨s, hstream, hs⟩ := h.stream_at
  obtain ⟨t, hdrop⟩ := hbegins
  rw [← h.next_eq] at hdrop
  rw [← h.header_eq] at hspelled
  obtain ⟨-, s', hread, -⟩ :=
    BlockReader.readBlock_at hlength hstream hs h.fileSize_eq hspelled hdrop.symm
  have hcount := hholds.count
  have hne : b.recordCount ≠ 0 := by
    intro hzero
    rw [hzero] at hcount
    exact absurd hcount (by simp)
  rw [turns_take h.started, hread]
  simp only [hne, if_false]
  rw [BlockReader.unpack_apply]
  simp only [h.codec_eq]
  rcases hholds.unpacks with ⟨rfl, e, hfails⟩ | ⟨data, hdata, honly⟩
  · rw [hfails]
    exact ⟨e, rfl⟩
  · have hleft : records.length < b.recordCount.toInt.toNat := by omega
    simp only [hdata]
    rw [← advance_eq_turns (by decide)]
    · exact returnsUntil_in_block h.started h.decoding_eq rfl hleft honly
    · exact h.started

end ContainerReader
end BlockContainer
