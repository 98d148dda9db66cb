import BlockContainer.Codec
import BlockContainer.Proofs.Record.RoundTrip

/-! # What is compressed can be unpacked

The stored form of any data inflates to the data, and a compressor uses another form only
if that inflates to them. So whatever a codec makes of a payload, it makes the payload of it
again, as long as neither is longer than the compressor can count.
-/
namespace BlockContainer

namespace Deflate

/-- The bytes of a stored block, read behind its first three bits. -/
theorem readStored_storedBytes {data : Bytes} (h : data.length ≤ storedLimit) (out : Array UInt8)
    (begun : List Bool) (t : Bytes) :
    readStored ⟨⟨begun, storedBytes data ++ t⟩, out⟩ = .ok () ⟨⟨[], t⟩, out ++ data⟩ := by
  have hlimit : storedLimit = 65535 := rfl
  generalize hlow : Bytes.ofLittleEndian 2 data.length = low
  generalize hhigh : Bytes.ofLittleEndian 2 (storedLimit - data.length) = high
  have hlowLength : low.length = 2 := by rw [← hlow, Bytes.length_ofLittleEndian]
  have hhighLength : high.length = 2 := by rw [← hhigh, Bytes.length_ofLittleEndian]
  have hcount : Bytes.toLittleEndian low = data.length := by
    rw [← hlow, Bytes.toLittleEndian_ofLittleEndian]
    omega
  have hcomplement : Bytes.toLittleEndian high = 65535 - data.length := by
    rw [← hhigh, Bytes.toLittleEndian_ofLittleEndian]
    omega
  have hbytes : storedBytes data ++ t = (low ++ high) ++ (data ++ t) := by
    simp only [storedBytes, hlow, hhigh, List.append_assoc]
  have hcounts : wholeBytes 4 ⟨begun, storedBytes data ++ t⟩ = .ok (low ++ high) ⟨[], data ++ t⟩ := by
    have hfour : (low ++ high).length = 4 := by rw [List.length_append, hlowLength, hhighLength]
    rw [hbytes, wholeBytes, ← hfour, List.take_left, List.drop_left]
    exact if_pos rfl
  have htake : (low ++ high).take 2 = low := List.take_left' hlowLength
  have hdrop : (low ++ high).drop 2 = high := List.drop_left' hlowLength
  have hrun : writeBytes data.length ⟨⟨[], data ++ t⟩, out⟩ = .ok () ⟨⟨[], t⟩, out ++ data⟩ := by
    rw [writeBytes, List.take_left, List.drop_left]
    exact if_pos rfl
  have hread : reading (wholeBytes 4) ⟨⟨begun, storedBytes data ++ t⟩, out⟩ =
      .ok (low ++ high) ⟨⟨[], data ++ t⟩, out⟩ :=
    focus_eq_ok_iff.2 ⟨_, hcounts, rfl⟩
  have hcheck : reading (require (data.length + (65535 - data.length) = 65535))
      ⟨⟨[], data ++ t⟩, out⟩ = .ok () ⟨⟨[], data ++ t⟩, out⟩ :=
    focus_eq_ok_iff.2 ⟨_, ensure_eq_ok_iff.2 ⟨by omega, rfl⟩, rfl⟩
  rw [readStored, Runs.bind_of_ok hread, htake, hdrop, hcount, hcomplement,
    Runs.bind_of_ok hcheck, hrun]

theorem readBlock_storedBlock {data : Bytes} (h : data.length ≤ storedLimit) (last : Bool)
    (out : Array UInt8) (t : Bytes) :
    readBlock ⟨⟨[], storedBlock last data ++ t⟩, out⟩ = .ok last ⟨⟨[], t⟩, out ++ data⟩ := by
  have hlast : reading bit ⟨⟨[], storedBlock last data ++ t⟩, out⟩ =
      .ok last ⟨⟨List.replicate 7 false, storedBytes data ++ t⟩, out⟩ := by
    cases last <;> rfl
  have hkind : reading (number 2) ⟨⟨List.replicate 7 false, storedBytes data ++ t⟩, out⟩ =
      .ok 0 ⟨⟨List.replicate 5 false, storedBytes data ++ t⟩, out⟩ := rfl
  rw [readBlock, Runs.bind_of_ok hlast, Runs.bind_of_ok hkind, readContent, if_pos rfl,
    Runs.bind_of_ok (readStored_storedBytes h out _ t)]
  rfl

theorem readBlocks_stored (data : Bytes) (out : Array UInt8) :
    readBlocks ⟨⟨[], stored data⟩, out⟩ = .ok () ⟨⟨[], []⟩, out ++ data⟩ := by
  fun_induction stored data generalizing out with
  | case1 data h =>
    have hblock := readBlock_storedBlock h true out []
    rw [List.append_nil] at hblock
    rw [readBlocks_eq, hblock]
  | case2 data h ih =>
    have hlength : (data.take storedLimit).length ≤ storedLimit := List.length_take_le _ _
    have hblock := readBlock_storedBlock hlength false out (stored (data.drop storedLimit))
    have hjoin : out ++ data.take storedLimit ++ data.drop storedLimit = out ++ data := by
      apply Array.toList_inj.1
      simp
    rw [readBlocks_eq, hblock]
    simp only [ih, hjoin]

/-- The stored form is a stream of the data. -/
theorem isStreamOf_stored (data : Bytes) : isStreamOf data (stored data) = true := by
  rw [isStreamOf, Inflation.ofBytes, BitSource.ofBytes, readBlocks_stored]
  simp

/-- Whatever form the compressor chooses, it is a stream of the data. -/
theorem isStreamOf_deflate (level : Int) (data : Bytes) :
    isStreamOf data (deflate level data) = true := by
  simp only [deflate]
  generalize (if level = -1 then defaultLevel else level) = level
  cases Effort.levels[level.toNat - 1]? with
  | none => exact isStreamOf_stored data
  | some e =>
    by_cases hzero : level = 0
    · simp only [hzero, if_true]
      exact isStreamOf_stored data
    · by_cases hsame : isStreamOf data (searched e data) = true
      · simp only [hzero, hsame, if_true, if_false]
      · simp only [hzero, hsame, if_false, Bool.false_eq_true]
        exact isStreamOf_stored data

/-- A stream of the data ends where the input does. -/
theorem readBlocks_of_isStreamOf {data input : Bytes} (h : isStreamOf data input = true) :
    ∃ s, readBlocks (.ofBytes input) = .ok () s ∧ s.source.rest = [] ∧ s.out.toList = data := by
  rw [isStreamOf] at h
  split at h
  · next s hrun =>
    rw [Bool.and_eq_true, List.isEmpty_iff, beq_iff_eq] at h
    exact ⟨s, hrun, h⟩
  · cases h

theorem inflate_of_isStreamOf {data input : Bytes} (h : isStreamOf data input = true) :
    inflate input = .ok data := by
  obtain ⟨s, hrun, -, hout⟩ := readBlocks_of_isStreamOf h
  rw [inflate, hrun]
  exact congrArg Except.ok hout

/-- The service hands out whole streams of what it is given, in their order. -/
class Conforming [Service] : Prop where
  conforms : ∃ (Made : Bytes → Bytes → Service.compressor.State → Prop)
    (stream : Int → Bytes → Bytes), Service.compressor.Conforms Made stream ∧
      ∀ {level}, -1 ≤ level ∧ level ≤ 9 → ∀ data, isStreamOf data (stream level data) = true

instance standard_conforming : Conforming :=
  ⟨_, deflate, Compressor.standard_conforms, fun _ data => isStreamOf_deflate _ data⟩

end Deflate

namespace Codec

theorem standard_cases {name : Bytes} {c : Codec}
    (h : CodecRegistry.standard.create name = .ok c) :
    c = .null ∨ c = .deflate Deflate.defaultLevel := by
  simp only [CodecRegistry.create] at h
  split at h
  · next found hfound =>
    cases h
    obtain ⟨entry, hentry, rfl⟩ := Option.map_eq_some_iff.1 hfound
    have hmem := List.mem_of_find?_eq_some hentry
    simp only [CodecRegistry.standard, List.mem_cons, List.not_mem_nil, or_false] at hmem
    exact hmem.imp (congrArg Prod.snd) (congrArg Prod.snd)
  · cases h

/-- A codec that was found by some name is found by its own. -/
theorem create_name {name : Bytes} {c : Codec}
    (h : CodecRegistry.standard.create name = .ok c) :
    CodecRegistry.standard.create c.name = .ok c := by
  rcases standard_cases h with rfl | rfl <;> rfl

/-- Services that read streams in their order make the same of a payload. -/
theorem decompressBy_eq {z : Deflate.Inflater} {Has : Bytes → Bytes → z.State → Prop}
    (hz : z.Conforms Has) (halts : z.Halts) (c : Codec) (payload : Bytes) :
    c.decompressBy z halts payload = c.decompress payload := by
  cases c with
  | null => rfl
  | deflate level => rw [decompressBy, hz.run_eq, decompress_deflate]

/-- Every service that reads streams in their order unpacks the bytes to the data. -/
def Unpacks (c : Codec) (packed data : Bytes) : Prop :=
  ∀ ⦃z : Deflate.Inflater⦄ ⦃Has : Bytes → Bytes → z.State → Prop⦄ (hz : z.Conforms Has),
    c.decompressBy z hz.halts packed = .ok data

theorem Unpacks.decompress {c : Codec} {packed data : Bytes} (h : c.Unpacks packed data) :
    c.decompress packed = .ok data := h Deflate.Inflater.standard_conforms

variable [Deflate.Service]

def packed (c : Codec) (payload : Bytes) : Bytes := (c.compress payload).toOption.getD []

/-- Neither the payload nor its compressed form is longer than the services can count. -/
def Fits (c : Codec) (payload : Bytes) : Prop :=
  match c with
  | null => True
  | deflate level => payload.length < 2 ^ 32 ∧ ((deflate level).packed payload).length < 2 ^ 32

def Compresses (c : Codec) : Prop := ∀ payload, c.compress payload = .ok (c.packed payload)

theorem packed_of_compress {c : Codec} {payload stream : Bytes}
    (h : c.compress payload = .ok stream) : c.packed payload = stream := by
  rw [packed, h]
  rfl

/-- The codecs that are found by name can compress anything. -/
theorem compresses_of_standard [Deflate.Conforming] {name : Bytes} {c : Codec}
    (h : CodecRegistry.standard.create name = .ok c) : c.Compresses := by
  intro payload
  rcases standard_cases h with rfl | rfl
  · rfl
  · obtain ⟨Made, stream, hd, -⟩ := Deflate.Conforming.conforms
    have hlevel : -1 ≤ Deflate.defaultLevel ∧ Deflate.defaultLevel ≤ 9 := by decide
    have hrun : (deflate Deflate.defaultLevel).compress payload = _ :=
      hd.run_eq Deflate.Service.halts hlevel (addressable payload)
    rw [packed_of_compress hrun, hrun]

/-- What is compressed is a stream of what the service saw. -/
theorem isStreamOf_packed [Deflate.Conforming] {level : Int} (hc : (deflate level).Compresses)
    (payload : Bytes) :
    Deflate.isStreamOf (addressable payload) ((deflate level).packed payload) = true := by
  obtain ⟨Made, stream, hd, hstream⟩ := Deflate.Conforming.conforms
  have hlevel := hd.level_of_run (hc payload)
  have hrun : (deflate level).compress payload = .ok (stream level (addressable payload)) :=
    hd.run_eq Deflate.Service.halts hlevel _
  rw [packed_of_compress hrun]
  exact hstream hlevel _

/-- What a codec compresses it unpacks to the same payload. -/
theorem unpacks_packed [Deflate.Conforming] {c : Codec} (hc : c.Compresses) {payload : Bytes}
    (h : c.Fits payload) : c.Unpacks (c.packed payload) payload := by
  intro z Has hz
  cases c with
  | null => rfl
  | deflate level =>
    have hstream := isStreamOf_packed hc payload
    rw [addressable_of_lt h.1] at hstream
    rw [decompressBy, hz.run_eq, addressable_of_lt h.2, Deflate.unpacked,
      Deflate.inflate_of_isStreamOf hstream]

theorem length_lt_of_fits {c : Codec} {payload : Bytes} (h : c.Fits payload)
    (hpacked : (c.packed payload).length < 2 ^ 63) : payload.length < 2 ^ 63 := by
  cases c with
  | null => exact hpacked
  | deflate level => exact Nat.lt_trans h.1 (by decide)

end Codec
end BlockContainer
