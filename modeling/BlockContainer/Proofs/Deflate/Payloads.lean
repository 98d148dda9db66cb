import BlockContainer.Proofs.Deflate.Prefix

/-! # Payloads through a service for streams

A codec hands payloads to services that make and read streams, and collects what they hand out in
chunks. Whatever the services are and however they cut a stream into chunks: damage to a payload
shows and never makes the data shorter, and what was compressed is restored as long as neither the
payload nor its compressed form is longer than the services can count.
-/
namespace BlockContainer.Codec

open Deflate

variable {z : Inflater} {Has : Bytes → Bytes → z.State → Prop}

/-- Unpacking returns the data of a whole stream and of nothing less: what follows the stream makes
no difference, nor does what follows damage, and a stream that something is missing from is told as
such. -/
structure ShowsDamage (unpack : Bytes → Except FormatError Bytes) : Prop where
  whole : ∀ {whole data : Bytes}, whole.length < 2 ^ 32 → isStreamOf data whole = true →
    unpack whole = .ok data
  data : ∀ {s t data : Bytes}, s.length + t.length < 2 ^ 32 → unpack s = .ok data →
    unpack (s ++ t) = .ok data
  corrupt : ∀ {s t : Bytes}, s.length + t.length < 2 ^ 32 → unpack s = .error .deflateCorrupt →
    unpack (s ++ t) = .error .deflateCorrupt
  cut : ∀ {s t whole behind data : Bytes}, s.length + t.length < 2 ^ 32 → s ++ t = whole ++ behind →
    isStreamOf data whole = true → s.length < whole.length → unpack s = .error .deflateTruncated
  empty : unpack [] = .error .deflateTruncated

theorem unpacked_eq_ok_iff {input data : Bytes} :
    unpacked input = .ok data ↔ inflate input = .ok data := by
  unfold unpacked
  split <;> simp_all

theorem unpacked_eq_corrupt_iff {input : Bytes} :
    unpacked input = .error .deflateCorrupt ↔ inflate input = .error .corrupt := by
  unfold unpacked
  split <;> simp_all

theorem unpacked_of_truncated {input : Bytes} (h : inflate input = .error .truncated) :
    unpacked input = .error .deflateTruncated := by
  rw [unpacked, h]

/-- Nothing is cut off. -/
theorem inflate_nil : inflate [] = .error .truncated := by
  rw [inflate, readBlocks_eq]
  rfl

/-- What a service comes to for a payload that it sees all of. -/
theorem decompressBy_of_lt (hz : z.Conforms Has) (halts : z.Halts) (level : Int) {payload : Bytes}
    (h : payload.length < 2 ^ 32) :
    decompressBy z halts (deflate level) payload = unpacked payload := by
  rw [decompressBy, hz.run_eq, addressable_of_lt h]

/-- With every service that reads streams in their order the calls come to an end for any input,
and damage to a payload shows. -/
theorem showsDamage_decompressBy (hz : z.Conforms Has) (level : Int) :
    ∃ halts : z.Halts, ShowsDamage (decompressBy z halts (deflate level)) := by
  refine ⟨hz.halts, ?_⟩
  have hwhole {s t : Bytes} (h : s.length + t.length < 2 ^ 32) :
      decompressBy z hz.halts (deflate level) (s ++ t) = unpacked (s ++ t) :=
    decompressBy_of_lt hz hz.halts level (by rwa [List.length_append])
  have hpart {s t : Bytes} (h : s.length + t.length < 2 ^ 32) :
      decompressBy z hz.halts (deflate level) s = unpacked s :=
    decompressBy_of_lt hz hz.halts level (by omega)
  refine
    { whole := fun {whole data} h hstream => ?_
      data := fun {s t data} h hs => ?_
      corrupt := fun {s t} h hs => ?_
      cut := fun {s t whole behind data} h hst hstream hlength => ?_
      empty := ?_ }
  · rw [decompressBy_of_lt hz hz.halts level h, unpacked_eq_ok_iff]
    exact inflate_of_isStreamOf hstream
  · rw [hpart h, unpacked_eq_ok_iff] at hs
    rw [hwhole h, unpacked_eq_ok_iff.2 (inflate_append_of_ok hs t)]
  · rw [hpart h, unpacked_eq_corrupt_iff] at hs
    rw [hwhole h, unpacked_eq_corrupt_iff.2 (inflate_append_of_corrupt hs t)]
  · obtain ⟨missing, rfl⟩ : s <+: whole :=
      List.prefix_of_prefix_length_le (hst ▸ List.prefix_append s t)
        (List.prefix_append whole behind) (Nat.le_of_lt hlength)
    have hmissing : missing ≠ [] := by
      rintro rfl
      rw [List.append_nil] at hlength
      exact Nat.lt_irrefl _ hlength
    rw [hpart h, unpacked_of_truncated (inflate_of_missing hstream hmissing)]
  · rw [decompressBy_of_lt hz hz.halts level (by decide), unpacked_of_truncated inflate_nil]

theorem stored_single : stored [97] = [1, 1, 0, 254, 255, 97] := by
  rw [stored]
  rfl

/-- The stored form of a byte with another byte behind it, damage with a byte behind it, and the
stored form cut off. -/
theorem showsDamage_stored : ∃ halts : Inflater.standard.Halts,
    decompressBy .standard halts (deflate 6) [1, 1, 0, 254, 255, 97, 7] = .ok [97] ∧
    decompressBy .standard halts (deflate 6) [7, 1] = .error .deflateCorrupt ∧
    decompressBy .standard halts (deflate 6) [1, 1, 0] = .error .deflateTruncated := by
  obtain ⟨halts, h⟩ := showsDamage_decompressBy Inflater.standard_conforms 6
  have hwhole : isStreamOf [97] [1, 1, 0, 254, 255, 97] = true :=
    stored_single ▸ isStreamOf_stored [97]
  have hdamage : inflate [7] = .error .corrupt := by
    rw [inflate, readBlocks_eq]
    rfl
  have hcorrupt : decompressBy .standard halts (deflate 6) [7] = .error .deflateCorrupt := by
    rw [decompressBy_of_lt Inflater.standard_conforms halts 6 (by decide)]
    exact unpacked_eq_corrupt_iff.2 hdamage
  exact ⟨halts, h.data (t := [7]) (by decide) (h.whole (by decide) hwhole),
    h.corrupt (t := [1]) (by decide) hcorrupt,
    h.cut (t := [254, 255, 97]) (by decide) (List.append_nil _).symm hwhole (by decide)⟩

/-- A payload is what its services see of it if they can count it. -/
theorem addressable_eq_iff (payload : Bytes) :
    addressable payload = payload ↔ payload.length < 2 ^ 32 := by
  refine ⟨fun h => ?_, addressable_of_lt⟩
  rw [← h]
  exact length_addressable_lt payload

/-- Of a stream that is too long to be counted something is missing. -/
theorem inflate_addressable_of_le {packed data : Bytes} (h : isStreamOf data packed = true)
    (hlong : 2 ^ 32 ≤ packed.length) : inflate (addressable packed) = .error .truncated := by
  let seen := packed.length % 4294967296
  have hseen : seen < packed.length :=
    Nat.lt_of_lt_of_le (Nat.mod_lt _ (by decide)) hlong
  have hsplit : packed.take seen ++ packed.drop seen = packed := List.take_append_drop _ _
  refine inflate_of_missing (hsplit.symm ▸ h) fun hnil => ?_
  exact Nat.not_le.2 hseen (List.drop_eq_nil_iff.1 hnil)

variable {d : Compressor} {Made : Bytes → Bytes → d.State → Prop} {stream : Int → Bytes → Bytes}

/-- What compressing a payload and unpacking the result comes to, with services that make whole
streams of what they see and read them. All calls come to an end, and the payload is restored if and
only if neither it nor its compressed form is too long to be counted. Otherwise the part of the
payload that was seen is returned, or its stream is cut off. -/
theorem decompressBy_compressBy (hd : d.Conforms Made stream) (hz : z.Conforms Has)
    (hstream : ∀ {level}, -1 ≤ level ∧ level ≤ 9 → ∀ data,
      isStreamOf data (stream level data) = true)
    {level : Int} (hlevel : -1 ≤ level ∧ level ≤ 9) (payload : Bytes) :
    ∃ (made : d.Halts) (read : z.Halts) (packed : Bytes),
      compressBy d made (deflate level) payload = .ok packed ∧
      decompressBy z read (deflate level) packed =
        (if packed.length < 2 ^ 32 then .ok (addressable payload) else .error .deflateTruncated) ∧
      (decompressBy z read (deflate level) packed = .ok payload ↔
        payload.length < 2 ^ 32 ∧ packed.length < 2 ^ 32) := by
  let packed := stream level (addressable payload)
  have hwhole : isStreamOf (addressable payload) packed = true := hstream hlevel _
  have hread : decompressBy z hz.halts (deflate level) packed =
      if packed.length < 2 ^ 32 then .ok (addressable payload) else .error .deflateTruncated := by
    by_cases hlength : packed.length < 2 ^ 32
    · rw [decompressBy_of_lt hz _ level hlength, if_pos hlength,
        unpacked_eq_ok_iff.2 (inflate_of_isStreamOf hwhole)]
    · rw [decompressBy, hz.run_eq, if_neg hlength,
        unpacked_of_truncated (inflate_addressable_of_le hwhole (Nat.not_lt.1 hlength))]
  refine ⟨hd.halts, hz.halts, packed, hd.run_eq hd.halts hlevel _, hread, ?_⟩
  rw [hread, ← addressable_eq_iff payload]
  by_cases hlength : packed.length < 2 ^ 32
  · rw [if_pos hlength, Except.ok.injEq]
    exact ⟨fun h => ⟨h, hlength⟩, And.left⟩
  · rw [if_neg hlength]
    constructor
    · intro h
      cases h
    · exact fun h => absurd h.2 hlength

/-- One byte at level zero. -/
theorem decompressBy_compressBy_single :
    ∃ (made : Compressor.standard.Halts) (read : Inflater.standard.Halts) (packed : Bytes),
      compressBy .standard made (deflate 0) [97] = .ok packed ∧
      decompressBy .standard read (deflate 0) packed = .ok [97] := by
  have hstream {level : Int} (_ : -1 ≤ level ∧ level ≤ 9) (data : Bytes) :
      isStreamOf data (Deflate.deflate level data) = true :=
    isStreamOf_deflate level data
  have hlevel : (-1 : Int) ≤ 0 ∧ (0 : Int) ≤ 9 := by decide
  obtain ⟨made, read, packed, hpacked, -, hrestored⟩ := decompressBy_compressBy
    Compressor.standard_conforms Inflater.standard_conforms hstream hlevel [97]
  have hlength : packed.length < 2 ^ 32 := by
    have hseen : addressable [97] = [97] := rfl
    have hknown := Compressor.standard_conforms.run_eq made hlevel [97]
    rw [compressBy, hseen, hknown, Except.ok.injEq] at hpacked
    have hstored : Deflate.deflate 0 [97] = stored [97] := rfl
    rw [← hpacked, hstored, stored_single]
    decide
  exact ⟨made, read, packed, hpacked, hrestored.2 ⟨by decide, hlength⟩⟩

/-- A payload of as many bytes as a count of 32 bits has values is compressed like none at all, and
nothing of it is restored. -/
theorem decompressBy_compressBy_zeros :
    ∃ (made : Compressor.standard.Halts) (read : Inflater.standard.Halts),
      compressBy .standard made (deflate 0) (List.replicate (2 ^ 32) 0) =
        .ok [1, 0, 0, 255, 255] ∧
      decompressBy .standard read (deflate 0) [1, 0, 0, 255, 255] = .ok [] ∧
      List.replicate (2 ^ 32) (0 : UInt8) ≠ [] := by
  have hnone : addressable (List.replicate (2 ^ 32) 0) = [] := by
    rw [addressable, List.length_replicate]
    rfl
  have hstored : stored [] = [1, 0, 0, 255, 255] := by
    rw [stored]
    rfl
  have hdeflate : Deflate.deflate 0 [] = stored [] := rfl
  refine ⟨Compressor.standard_conforms.halts, Inflater.standard_conforms.halts, ?_, ?_,
    fun hnil => ?_⟩
  · rw [compressBy, Compressor.standard_conforms.run_eq _ (by decide), hnone, hdeflate, hstored]
  · rw [← hstored, decompressBy_of_lt Inflater.standard_conforms _ 0 (by rw [hstored]; decide),
      unpacked_eq_ok_iff.2 (inflate_of_isStreamOf (isStreamOf_stored []))]
  · have hlength := congrArg List.length hnil
    rw [List.length_replicate] at hlength
    exact absurd hlength (by decide)

end BlockContainer.Codec
