import BlockContainer.Proofs.Container.Shortfall
import BlockContainer.Proofs.Deflate.Length
import BlockContainer.Proofs.Deflate.Payloads
import BlockContainer.Proofs.Writer.RoundTrip

/-! # Batches that are too long

A compressor counts bytes with 32 bits and loses those that it cannot count. Of a batch whose
payload or compressed form is longer a reader returns some of the records in front, but not
all of them, and then it fails.
-/
namespace BlockContainer.Writer

section Service

variable [Deflate.Service] {schema : Schema} {codec : Codec} {marker : SyncMarker}

namespace Entry

/-- A batch of encodings under the schema. -/
structure Encoded (schema : Schema) (batch : List Entry) : Prop where
  nonempty : batch ≠ []
  count : batch.length < 2 ^ 63
  takes : ∀ e ∈ batch, Decoder.Takes (Record.decode schema) e.bytes e.record

theorem Encoded.sound {batch : List Entry} (h : Encoded schema batch)
    (hfits : codec.Fits (data batch)) (hpayload : (codec.packed (data batch)).length < 2 ^ 63) : Sound schema codec batch :=
  ⟨h.count, hfits, hpayload, fun e he _ => h.takes e he⟩

/-- The block of a batch that does not fit holds some of the records. -/
theorem Encoded.holdsOnly [Deflate.Conforming] (hc : codec.Compresses) {batch : List Entry}
    (h : Encoded schema batch) (hlong : ¬codec.Fits (data batch)) :
    ∃ n < batch.length, (block codec batch).HoldsOnly codec (Record.decode schema)
      ((batch.take n).map record) := by
  have hcount : (block codec batch).recordCount.toInt = batch.length := toInt_ofInt_length h.count
  have hfewer {n : Nat} (hn : n < batch.length) :
      ((batch.take n).map record).length < (block codec batch).recordCount.toInt := by
    rw [hcount, List.length_map, List.length_take]
    omega
  cases codec with
  | null => exact absurd trivial hlong
  | deflate level =>
    have hstream := Codec.isStreamOf_packed hc (data batch)
    by_cases hpacked : ((Codec.deflate level).packed (data batch)).length < 2 ^ 32
    · have hdata : 2 ^ 32 ≤ (data batch).length := Nat.not_lt.1 fun hlt => hlong ⟨hlt, hpacked⟩
      have hunpacked : (Codec.deflate level).decompress (block (.deflate level) batch).payload =
          .ok (Codec.addressable (data batch)) := by
        rw [Codec.decompress_deflate, block, Codec.addressable_of_lt hpacked]
        exact Codec.unpacked_eq_ok_iff.2 (Deflate.inflate_of_isStreamOf hstream)
      have hseen := Codec.length_addressable_lt (data batch)
      obtain ⟨n, hn, honly⟩ := decodesOnly_of_short (Record.steady_decode schema) h.takes
        (d := .ofBytes (Codec.addressable (data batch))) (List.take_prefix _ _)
        (Nat.lt_of_lt_of_le hseen hdata)
      exact ⟨n, hn, hfewer hn, .inr ⟨_, hunpacked, honly⟩⟩
    · have hfails : (Codec.deflate level).decompress (block (.deflate level) batch).payload =
          .error .deflateTruncated := by
        rw [Codec.decompress_deflate, block]
        exact Codec.unpacked_of_truncated
          (Codec.inflate_addressable_of_le hstream (Nat.not_lt.1 hpacked))
      have hnone := List.length_pos_iff.2 h.nonempty
      exact ⟨0, hnone, hfewer hnone, .inl ⟨rfl, _, hfails⟩⟩

omit [Deflate.Service] in
theorem encoded_of_calls {interval : Nat} {calls : List (Call schema)}
    (hcalls : calls.length < 2 ^ 63) {batch : List Entry} (hbatch : batch ∈ batches interval [] calls)
    (hlengths : ∀ e ∈ batch, e.bytes.length < 2 ^ 63) : Encoded schema batch := by
  have hsub := sublist_of_mem_batches hbatch
  have hcount := Nat.le_trans hsub.length_le (length_entries_le calls)
  refine ⟨ne_nil_of_mem_batches hbatch, by omega, fun e he => ?_⟩
  obtain ⟨call, -, hcall⟩ := List.mem_flatMap.1 (hsub.subset he)
  exact call.takes e hcall (hlengths e he)

/-- Of batches that do not all fit there is a first. -/
theorem first_long {batches : List (List Entry)} (h : ∃ batch ∈ batches, ¬codec.Fits (data batch)) :
    ∃ within long rest, batches = within ++ long :: rest ∧
      (∀ batch ∈ within, codec.Fits (data batch)) ∧ ¬codec.Fits (data long) := by
  classical
  obtain ⟨batch, hbatch, hlong⟩ := h
  cases hfind : batches.find? fun batch => ¬codec.Fits (data batch) with
  | none =>
    have hfits := List.find?_eq_none.1 hfind batch hbatch
    simp [hlong] at hfits
  | some long =>
    obtain ⟨hlong, within, rest, hparts, hwithin⟩ := List.find?_eq_some_iff_append.1 hfind
    exact ⟨within, long, rest, hparts, by simpa using hwithin, by simpa using hlong⟩

end Entry

section Assembled

variable {front within middle back : List (List Entry)} {long : List Entry}

variable (schema codec marker) in
theorem length_assembly (batches : List (List Entry)) :
    (assembly schema codec marker batches).content.length =
      (headerFor schema codec marker).toBytes.length +
        (Portion.allBytes marker (batches.map (Entry.portion codec))).length :=
  List.length_append

variable (schema codec marker) in
theorem content_assembly_append (front back : List (List Entry)) :
    (assembly schema codec marker (front ++ back)).content =
      (assembly schema codec marker front).content ++
        Portion.allBytes marker (back.map (Entry.portion codec)) := by
  rw [Assembly.content, Assembly.content, assembly, List.map_append, Portion.allBytes,
    List.flatMap_append, ← List.append_assoc]
  rfl

variable (schema codec marker) in
theorem length_assembly_append (front back : List (List Entry)) :
    (assembly schema codec marker (front ++ back)).content.length =
      (assembly schema codec marker front).content.length +
        (Portion.allBytes marker (back.map (Entry.portion codec))).length := by
  rw [content_assembly_append, List.length_append]

variable (front back) in
/-- Between any two batches there is a cut. -/
theorem cut_assembly (h : (assembly schema codec marker (front ++ back)).Sound) :
    ((assembly schema codec marker (front ++ back)).container h).Cut
      (assembly schema codec marker front).content.length := by
  rw [length_assembly]
  exact Assembly.cut_of_append h List.map_append

/-- In the bytes of some batches are their records. -/
theorem recordsIn_assembly {all : List (List Entry)} (hall : all = front ++ middle ++ back)
    (h : (assembly schema codec marker all).Sound) {start : Nat}
    (hstart : start = 0 ∧ front = [] ∨
      start = (assembly schema codec marker front).content.length) :
    ((assembly schema codec marker all).container h).recordsIn start
        (assembly schema codec marker (front ++ middle)).content.length =
      middle.flatten.map Entry.record := by
  have hportions : (assembly schema codec marker all).portions =
      front.map (Entry.portion codec) ++ middle.map (Entry.portion codec) ++
        back.map (Entry.portion codec) := by
    rw [assembly, hall, List.map_append, List.map_append]
  have hrecords := Assembly.recordsIn_of_append h hportions
  rw [List.flatMap_map] at hrecords
  rw [List.map_flatten, length_assembly_append, length_assembly]
  rcases hstart with ⟨rfl, rfl⟩ | rfl
  · exact (Container.recordsIn_zero _).trans hrecords
  · rw [length_assembly]
    exact hrecords

theorem spelled_block (codec : Codec) (marker : SyncMarker) {batch : List Entry}
    (hcount : batch.length < 2 ^ 63) (hpayload : (codec.packed (Entry.data batch)).length < 2 ^ 63) :
    ∃ framing, Block.Spelled marker (Entry.block codec batch) framing
      ((Entry.block codec batch).toBytes marker) := by
  have hsign : 0 ≤ (Entry.block codec batch).recordCount.toInt := by
    rw [Entry.block, toInt_ofInt_length hcount]
    omega
  exact ⟨_, Block.spelled_toBytes marker hsign hpayload⟩

/-- The records of batches that fit come back, and behind them some of a batch that does not. -/
theorem returnsUntil_long [Deflate.Conforming] (hname : schema.name ≠ [])
    (hfields : ∀ f ∈ schema.fields, f.name ≠ []) (hc : codec.Compresses)
    (hsound : (assembly schema codec marker (front ++ within)).Sound)
    (hencoded : Entry.Encoded schema long) (hlong : ¬codec.Fits (Entry.data long))
    {content behind : Bytes} (hcontent : content =
      (assembly schema codec marker (front ++ within)).content ++
        ((Entry.block codec long).toBytes marker ++ behind))
    (hlength : content.length < 2 ^ 63) {t : FileTree} {source : Source} {number : Nat}
    (hentry : t.entry source.path = .ok (.file number content)) {scanSize : UInt64}
    (hstart : source.start = 0 ∧ front = [] ∨
      source.start.toNat = (assembly schema codec marker front).content.length ∧ 0 < scanSize)
    (hend : (assembly schema codec marker (front ++ within)).content.length <
      (ContainerReader.rangeEnd source content).toNat) (hbinding : source.binding = .ofFile) :
    ∃ n < long.length, ContainerReader.ReturnsUntil Error.InBytes
      (ContainerReader.start t (.unstarted source scanSize content.length))
      (within.flatten.map Entry.record ++ (long.take n).map Entry.record) := by
  let c := (assembly schema codec marker (front ++ within)).container hsound
  have hsizes := congrArg List.length hcontent
  rw [List.length_append, List.length_append] at hsizes
  have hpayload : (codec.packed (Entry.data long)).length ≤
      ((Entry.block codec long).toBytes marker).length := by
    rw [Block.toBytes_eq]
    simp only [List.length_append, Entry.block]
    omega
  obtain ⟨framing, hspelled⟩ := spelled_block codec marker hencoded.count (by omega)
  have hbytes := hspelled.length_eq
  have hextends : c.Extends content (ContainerReader.rangeEnd source content) :=
    { begins := hcontent ▸ List.prefix_append _ _
      longer := by
        change (assembly schema codec marker (front ++ within)).content.length < _
        omega
      length_lt := hlength
      stop_behind := hend }
  have hnext : (Entry.block codec long).toBytes marker <+: content.drop c.content.length := by
    rw [hcontent]
    change _ <+: List.drop (assembly schema codec marker (front ++ within)).content.length _
    rw [List.drop_left]
    exact List.prefix_append _ _
  obtain ⟨n, hn, honly⟩ := hencoded.holdsOnly hc hlong
  have hdecoding := decoding_assembly hname hfields hsound
  rw [← hbinding] at hdecoding
  have hbegin : source.start = 0 ∨ c.Cut source.start.toNat ∧ 0 < scanSize := by
    rcases hstart with ⟨hzero, -⟩ | ⟨hcut, hscan⟩
    · exact .inl hzero
    · rw [hcut]
      exact .inr ⟨cut_assembly front within hsound, hscan⟩
  have hrecords : c.recordsIn source.start.toNat c.content.length =
      within.flatten.map Entry.record := by
    refine recordsIn_assembly (List.append_nil _).symm hsound (hstart.imp ?_ And.left)
    exact fun hfirst => ⟨congrArg UInt64.toNat hfirst.1, hfirst.2⟩
  have hreturns := ContainerReader.returnsUntil_extended hextends
    (fun r₂ hr₂ => ContainerReader.returnsUntil_of_short hr₂ hlength hspelled hnext honly)
    hentry hbegin hdecoding
  rw [hrecords] at hreturns
  exact ⟨n, hn, hreturns⟩

/-- A reader of a range with a batch that does not fit returns some of the records of its batches,
but not all of them, and then fails. -/
theorem returnsPart_of_long [Deflate.Conforming] (hname : schema.name ≠ [])
    (hfields : ∀ f ∈ schema.fields, f.name ≠ []) {codecName : Bytes}
    (hcodec : CodecRegistry.standard.create codecName = .ok codec)
    (hencoded : ∀ batch ∈ front ++ middle, Entry.Encoded schema batch)
    (hfront : ∀ batch ∈ front, codec.Fits (Entry.data batch))
    (hmiddle : ∃ batch ∈ middle, ¬codec.Fits (Entry.data batch)) {content : Bytes}
    (hbegins : (assembly schema codec marker (front ++ middle)).content <+: content)
    (hlength : content.length < 2 ^ 63) {t : FileTree} {source : Source} {number : Nat}
    (hentry : t.entry source.path = .ok (.file number content)) {scanSize : UInt64}
    (hstart : source.start = 0 ∧ front = [] ∨
      source.start.toNat = (assembly schema codec marker front).content.length ∧ 0 < scanSize)
    (hend : (assembly schema codec marker (front ++ middle)).content.length ≤
      (ContainerReader.rangeEnd source content).toNat) (hbinding : source.binding = .ofFile) :
    ContainerReader.ReturnsPart
      (ContainerReader.start t (.unstarted source scanSize content.length))
      (middle.flatten.map Entry.record) := by
  obtain ⟨within, long, rest, rfl, hwithin, hlong⟩ := Entry.first_long hmiddle
  have hmem : long ∈ front ++ (within ++ long :: rest) := by simp
  obtain ⟨behind, rfl⟩ := hbegins
  have hblock : (assembly schema codec marker (front ++ (within ++ long :: rest))).content =
      (assembly schema codec marker (front ++ within)).content ++
        ((Entry.block codec long).toBytes marker ++
          Portion.allBytes marker (rest.map (Entry.portion codec))) := by
    rw [← List.append_assoc, content_assembly_append]
    rfl
  have hsizes := congrArg List.length hblock
  have hpos := (Entry.block codec long).length_toBytes_pos marker
  rw [List.length_append, List.length_append] at hsizes
  rw [List.length_append] at hlength
  have hsound : (assembly schema codec marker (front ++ within)).Sound := by
    refine assembly_sound hcodec (fun batch hbatch => ?_) (by omega)
    have hpayload : _ ≤ (assembly schema codec marker (front ++ within)).content.length :=
      payload_le_assembly hbatch
    refine (hencoded batch ?_).sound ?_ (by omega)
    · rw [← List.append_assoc]
      exact List.mem_append_left _ hbatch
    · exact (List.mem_append.1 hbatch).elim (hfront batch) (hwithin batch)
  obtain ⟨n, hn, hreturns⟩ := returnsUntil_long hname hfields
    (Codec.compresses_of_standard hcodec) hsound (hencoded long hmem) hlong
    (by rw [hblock, List.append_assoc, List.append_assoc]) (by rwa [List.length_append]) hentry
    hstart (by omega) hbinding
  refine ⟨(within.flatten.map Entry.record).length + n, ?_, ?_⟩
  · simp only [List.flatten_append, List.flatten_cons, List.map_append, List.length_append,
      List.length_map]
    omega
  · rw [List.flatten_append, List.flatten_cons, List.map_append, List.map_append,
      List.take_length_add_append, List.take_append_of_le_length (by rw [List.length_map]; omega),
      ← List.map_take]
    exact hreturns

end Assembled

end Service

section Long

def longRecord (value : Bytes) : Record := ⟨FixedRecord.schema, [.bytes value]⟩

def longEntry (value : Bytes) : Entry :=
  ⟨(longRecord value).values.flatMap Value.encode, longRecord value⟩

def longCalls (value : Bytes) : List (Call FixedRecord.schema) :=
  [.append (longRecord value) rfl, .sync, .append (longRecord value) rfl]

def longFile (value : Bytes) (n : Nat) : Bytes :=
  (assembly FixedRecord.schema (.deflate Deflate.defaultLevel) .zero
    (List.replicate n [longEntry value])).content

theorem longFile_prefix (value : Bytes) : longFile value 1 <+: longFile value 2 ∧
    (longFile value 1).length < (longFile value 2).length := by
  have hmore : longFile value 2 = longFile value 1 ++
      ((Entry.block (.deflate Deflate.defaultLevel) [longEntry value]).toBytes .zero ++ []) :=
    content_assembly_append _ _ _ [[longEntry value]] [[longEntry value]]
  have hpos :=
    (Entry.block (.deflate Deflate.defaultLevel) [longEntry value]).length_toBytes_pos .zero
  refine ⟨hmore ▸ List.prefix_append _ _, ?_⟩
  rw [hmore, List.length_append, List.length_append]
  omega

-- The encoding of such a value has 2 ^ 32 bytes, of which the compressor sees none.
variable {value : Bytes} (hvalue : value.length = 2 ^ 32 - 5)
include hvalue

theorem length_longEntry : (longEntry value).bytes.length = 2 ^ 32 := by
  have hbytes : (longEntry value).bytes = Encode.bytes value ++ [] := rfl
  have hcount : (Encode.long (Int64.ofInt (2 ^ 32 - 5 : Nat))).length = 5 := by decide +kernel
  rw [hbytes, List.append_nil, Encode.bytes, List.length_append, hvalue, hcount]
  rfl

theorem length_data_long : (Entry.data [longEntry value]).length = 2 ^ 32 := by
  have hdata : Entry.data [longEntry value] = (longEntry value).bytes ++ [] := rfl
  rw [hdata, List.append_nil, length_longEntry hvalue]

theorem length_packed_long : ((Codec.deflate Deflate.defaultLevel).packed
    (Entry.data [longEntry value])).length < 2 ^ 8 := by
  have hnone : Codec.addressable (Entry.data [longEntry value]) = [] := by
    rw [Codec.addressable, length_data_long hvalue]
    rfl
  rw [Codec.packed_of_compress (Codec.compress_deflate (by decide) _), hnone]
  exact Deflate.length_deflate_nil _

theorem batches_long :
    batches (max 20 1) [] (longCalls value) = List.replicate 2 [longEntry value] ∧
    batches (max 20 1) [] ((longCalls value).take 1) = List.replicate 1 [longEntry value] := by
  have hfull : max 20 1 ≤ (Entry.data [longEntry value]).length := by
    rw [length_data_long hvalue]
    decide
  have hone : (Call.append (longRecord value) rfl : Call FixedRecord.schema).divide (max 20 1) [] =
      ([[longEntry value]], []) := if_pos hfull
  have htaken : (longCalls value).take 1 = [.append (longRecord value) rfl] := rfl
  constructor
  · rw [longCalls, batches, hone, batches, batches, Call.divide, hone]
    rfl
  · rw [htaken, batches, hone]
    rfl

theorem length_longFile : (longFile value 2).length < 2 ^ 63 := by
  have hheader :
      (headerFor FixedRecord.schema (.deflate Deflate.defaultLevel) .zero).toBytes.length < 2 ^ 10 := by
    decide +kernel
  let block := Entry.block (.deflate Deflate.defaultLevel) [longEntry value]
  have hpacked : block.payload.length < 2 ^ 8 := length_packed_long hvalue
  have hblock := block.length_toBytes_le .zero
  have htwo : Entry.toBytes (.deflate Deflate.defaultLevel) .zero
      (List.replicate 2 [longEntry value]) =
        block.toBytes .zero ++ (block.toBytes .zero ++ []) := rfl
  rw [longFile, content_assembly, htwo]
  simp only [List.length_append, List.length_nil]
  omega

theorem close_long : ∃ w₀ w : Writer,
    create {} "birds" FixedRecord.schema "deflate" 20 .zero = .ok w₀ ∧
    w₀.codec = .deflate Deflate.defaultLevel ∧
    close ((longCalls value).foldl (fun w call => call.perform w) w₀) = .ok () w ∧
    w.file = longFile value 2 := by
  have hdeflate : CodecRegistry.standard.create "deflate" =
      .ok (.deflate Deflate.defaultLevel) := rfl
  obtain ⟨w₀, w, hcreate, hcodec, hclose, hfile⟩ :=
    close_alone hdeflate FixedRecord.schema 20 (longCalls value)
  rw [(batches_long hvalue).1] at hfile
  exact ⟨w₀, w, hcreate, hcodec, hclose, hfile⟩

/-- A reader that starts with such a file fails on the first record. -/
theorem start_fails_of_long {content : Bytes} (hbegins : longFile value 1 <+: content)
    (hlength : content.length < 2 ^ 63) {t : FileTree} {source : Source} {number : Nat}
    (hentry : t.entry source.path = .ok (.file number content)) (hstart : source.start = 0)
    (hend : (longFile value 1).length ≤ (ContainerReader.rangeEnd source content).toNat)
    (hbinding : source.binding = .ofFile) (scanSize : UInt64) :
    ∃ cause r', ContainerReader.start (α := Record) t (.unstarted source scanSize content.length) =
      .error (.format cause) r' := by
  have hdeflate : CodecRegistry.standard.create "deflate" =
      .ok (.deflate Deflate.defaultLevel) := rfl
  have hcalls : (longCalls value).length < 2 ^ 63 := show 3 < 2 ^ 63 by decide
  have hmem : [longEntry value] ∈ batches (max 20 1) [] (longCalls value) := by
    rw [(batches_long hvalue).1]
    exact List.mem_cons_self
  have hencoded : ∀ batch ∈ [] ++ [[longEntry value]], Entry.Encoded FixedRecord.schema batch := by
    intro batch hbatch
    obtain rfl := List.mem_singleton.1 hbatch
    refine Entry.encoded_of_calls hcalls hmem fun e he => ?_
    obtain rfl := List.mem_singleton.1 he
    rw [length_longEntry hvalue]
    decide
  have hlong : ∃ batch ∈ [[longEntry value]],
      ¬(Codec.deflate Deflate.defaultLevel).Fits (Entry.data batch) := by
    refine ⟨_, List.mem_cons_self, fun hfits => ?_⟩
    have hcounted := hfits.1
    rw [length_data_long hvalue] at hcounted
    exact Nat.lt_irrefl _ hcounted
  have hreturns : ContainerReader.ReturnsPart
      (ContainerReader.start t (.unstarted source scanSize content.length)) [longRecord value] :=
    returnsPart_of_long (by decide) (by decide) hdeflate hencoded (by simp) hlong hbegins hlength
      hentry (.inl ⟨hstart, rfl⟩) hend hbinding
  exact hreturns.of_single

end Long

end BlockContainer.Writer
