import BlockContainer.Proofs.Container.Assembly
import BlockContainer.Proofs.Container.Returning
import BlockContainer.Proofs.Schema.RoundTrip
import BlockContainer.Proofs.Writer.Calls

/-! # Written files come back

The file of a writer is a container whose blocks hold the batches, so a reader of the whole
file that decodes by the schema of the file returns the records that were accepted, in their
order, and then says that there is none.
-/
namespace BlockContainer

namespace Writer

variable {schema : Schema} {codec : Codec} {marker : SyncMarker}

/-- The batches hold what waited and what the calls bring, in this order. -/
theorem flatten_batches (interval : Nat) (waiting : List Entry) (calls : List (Call schema)) :
    (batches interval waiting calls).flatten = waiting ++ calls.flatMap Call.entries := by
  induction calls generalizing waiting with
  | nil => rw [batches, Entry.flatten_batch, List.flatMap_nil, List.append_nil]
  | cons call rest ih =>
    rw [batches, List.flatten_append, ih, List.flatMap_cons, ← List.append_assoc,
      ← List.append_assoc]
    congr 1
    cases call with
    | sync => simp [Call.divide, Call.entries, Entry.flatten_batch]
    | append | appendTyped | appendEncoded => exact Entry.flatten_settle _ _

theorem Call.takes {call : Call schema} : ∀ e ∈ call.entries, e.bytes.length < 2 ^ 63 →
    Decoder.Takes (Record.decode schema) e.bytes e.record := by
  intro e he hlength
  cases call with
  | append r typed =>
    rw [entries] at he
    split at he
    · next hschema =>
      obtain rfl := List.mem_singleton.1 he
      have htakes := Record.takes_encode typed (Record.storable_of_length hlength)
      rwa [hschema] at htakes
    · cases he
  | appendTyped a same =>
    obtain rfl := List.mem_singleton.1 he
    have hencode := LawfulRecord.encode_eq a
    rw [hencode] at hlength
    have htakes := Record.takes_encode (LawfulRecord.wellTyped a) (Record.storable_of_length hlength)
    rwa [LawfulRecord.schema_eq, same, ← hencode] at htakes
  | appendEncoded b r encodes =>
    obtain rfl := List.mem_singleton.1 he
    exact encodes.takes
  | sync => cases he

theorem length_entries_le (calls : List (Call schema)) :
    (calls.flatMap Call.entries).length ≤ calls.length := by
  induction calls with
  | nil => exact Nat.le_refl _
  | cons call rest ih =>
    have hone : call.entries.length ≤ 1 := by
      cases call with
      | append r typed =>
        rw [Call.entries]
        split <;> simp
      | appendTyped | appendEncoded | sync => simp [Call.entries]
    rw [List.flatMap_cons, List.length_append, List.length_cons]
    omega

theorem sublist_of_mem_batches {interval : Nat} {calls : List (Call schema)} {batch : List Entry}
    (h : batch ∈ batches interval [] calls) : batch.Sublist (calls.flatMap Call.entries) := by
  have hsub := List.sublist_flatten_of_mem h
  rwa [flatten_batches, List.nil_append] at hsub

theorem ne_nil_of_mem_batches {interval : Nat} {waiting : List Entry} {calls : List (Call schema)}
    {batch : List Entry} (h : batch ∈ batches interval waiting calls) : batch ≠ [] := by
  have hbatch {waiting : List Entry} (h : batch ∈ Entry.batch waiting) : batch ≠ [] := by
    rintro rfl
    cases waiting <;> simp [Entry.batch] at h
  have hsettle {waiting : List Entry} (h : batch ∈ (Entry.settle interval waiting).1) :
      batch ≠ [] := by
    rw [Entry.settle] at h
    split at h
    · exact hbatch h
    · cases h
  induction calls generalizing waiting with
  | nil => exact hbatch h
  | cons call rest ih =>
    rcases List.mem_append.1 h with h | h
    · cases call with
      | sync => exact hbatch h
      | append | appendTyped | appendEncoded => exact hsettle h
    · exact ih h

theorem entries_headerFor (schema : Schema) (codec : Codec) (marker : SyncMarker) :
    (headerFor schema codec marker).metadata.entries =
      [(Header.codecKey, codec.name), (Header.schemaKey, schema.toJson)] := by
  rfl

theorem size_headerFor (schema : Schema) (codec : Codec) (marker : SyncMarker) :
    (headerFor schema codec marker).metadata.size < 2 ^ 63 := by
  have htwo : 2 < 2 ^ 63 := by decide
  rw [Metadata.size, entries_headerFor]
  exact htwo

theorem schemaJson_headerFor (schema : Schema) (codec : Codec) (marker : SyncMarker) :
    (headerFor schema codec marker).schemaJson = schema.toJson := by
  simp only [Header.schemaJson, Metadata.get?, entries_headerFor]
  rfl

theorem codec_headerFor (schema : Schema) (codec : Codec) (marker : SyncMarker) :
    (headerFor schema codec marker).codec = codec.name := by
  simp only [Header.codec, Metadata.get?, entries_headerFor]
  rfl

section Service

variable [Deflate.Service]

/-- A batch of encodings under the schema, short enough to be written. -/
structure Entry.Sound (schema : Schema) (codec : Codec) (batch : List Entry) : Prop where
  count : batch.length < 2 ^ 63
  fits : codec.Fits (data batch)
  payload : (codec.packed (data batch)).length < 2 ^ 63
  takes : ∀ e ∈ batch, e.bytes.length < 2 ^ 63 →
    Decoder.Takes (Record.decode schema) e.bytes e.record

def Entry.portion (codec : Codec) (batch : List Entry) : Portion Record where
  block := block codec batch
  records := batch.map record

theorem Entry.Sound.portion [Deflate.Conforming] (hc : codec.Compresses) {batch : List Entry}
    (h : Sound schema codec batch) :
    (Entry.portion codec batch).Sound codec (Record.decode schema) where
  count := by
    rw [Entry.portion, List.length_map]
    exact toInt_ofInt_length h.count
  unpacks := by
    have hdata := Codec.length_lt_of_fits h.fits h.payload
    have htakes : ∀ e ∈ batch, Decoder.Takes (Record.decode schema) e.bytes e.record := by
      intro e he
      refine h.takes e he (Nat.lt_of_le_of_lt ?_ hdata)
      exact (List.sublist_flatten_of_mem (List.mem_map_of_mem he)).length_le
    obtain ⟨_, hdecodes, -⟩ := decodesTo_of_takes htakes (d := .ofBytes (data batch)) (t := [])
      (List.append_nil _).symm
    exact .inr ⟨data batch, (Codec.unpacks_packed hc h.fits).decompress, hdecodes.decodes⟩
  payload_lt := h.payload

/-- What goes out of the calls can be read, if it can be written. -/
theorem sound_of_calls {interval : Nat} {calls : List (Call schema)} (hcalls : calls.length < 2 ^ 63)
    {batch : List Entry} (hbatch : batch ∈ batches interval [] calls)
    (hfits : codec.Fits (Entry.data batch))
    (hpayload : (codec.packed (Entry.data batch)).length < 2 ^ 63) :
    Entry.Sound schema codec batch := by
  have hsub := sublist_of_mem_batches hbatch
  have hcount := Nat.le_trans hsub.length_le (length_entries_le calls)
  refine ⟨by omega, hfits, hpayload, fun e he => ?_⟩
  obtain ⟨call, -, hcall⟩ := List.mem_flatMap.1 (hsub.subset he)
  exact call.takes e hcall

theorem payload_le_toBytes {batches : List (List Entry)} {batch : List Entry}
    (h : batch ∈ batches) :
    (codec.packed (Entry.data batch)).length ≤ (Entry.toBytes codec marker batches).length := by
  have hblock : List.Sublist ((Entry.block codec batch).toBytes marker)
      (Entry.toBytes codec marker batches) :=
    List.sublist_flatten_of_mem (List.mem_map_of_mem h)
  have hlength := hblock.length_le
  rw [Block.toBytes_eq] at hlength
  simp only [List.length_append, Entry.block] at hlength
  omega

def assembly (schema : Schema) (codec : Codec) (marker : SyncMarker) (batches : List (List Entry)) :
    Assembly Record where
  header := headerFor schema codec marker
  codec := codec
  decoding := Record.decode schema
  portions := batches.map (Entry.portion codec)

theorem content_assembly (batches : List (List Entry)) :
    (assembly schema codec marker batches).content =
      (headerFor schema codec marker).toBytes ++ Entry.toBytes codec marker batches := by
  rw [Assembly.content, Portion.allBytes, Entry.toBytes]
  exact congrArg _ (List.flatMap_map _ _ batches)

theorem assembly_sound [Deflate.Conforming] {codecName : Bytes}
    (hcodec : CodecRegistry.standard.create codecName = .ok codec) {batches : List (List Entry)}
    (hbatches : ∀ batch ∈ batches, Entry.Sound schema codec batch)
    (hlength : (assembly schema codec marker batches).content.length < 2 ^ 63) :
    (assembly schema codec marker batches).Sound where
  codec_found := by
    rw [assembly, codec_headerFor]
    exact Codec.create_name hcodec
  portions p hp := by
    obtain ⟨batch, hbatch, rfl⟩ := List.mem_map.1 hp
    exact (hbatches batch hbatch).portion (Codec.compresses_of_standard hcodec)
  entries_lt := size_headerFor schema codec marker
  length_lt := hlength

/-- A reader that takes the schema of the file decodes by the schema of the writer. -/
theorem decoding_assembly (hname : schema.name ≠ []) (hfields : ∀ f ∈ schema.fields, f.name ≠ [])
    {batches : List (List Entry)} (h : (assembly schema codec marker batches).Sound) :
    RecordType.decoding .ofFile ((assembly schema codec marker batches).container h).header =
      .ok ((assembly schema codec marker batches).container h).decoding := by
  have hjson : ((assembly schema codec marker batches).container h).header.schemaJson =
      schema.toJson := schemaJson_headerFor schema codec marker
  have hpresent : schema.toJson.isEmpty = false := rfl
  change (do return Record.decode (← SchemaBinding.resolve .ofFile _)) = _
  rw [SchemaBinding.resolve, hjson, if_neg (by simp [hpresent]), Schema.ofJson_toJson hname hfields]
  rfl

theorem records_assembly {batches : List (List Entry)}
    (h : (assembly schema codec marker batches).Sound) :
    ((assembly schema codec marker batches).container h).records =
      batches.flatten.map Entry.record := by
  rw [Assembly.records_container, assembly, List.flatMap_map, List.map_flatten]
  rfl

/-- The closed file has the blocks of the batches behind its header. -/
theorem file_of_close [Deflate.Conforming] {t : FileTree} {path codecName : Bytes} {interval : Nat}
    {w₀ w : Writer} (hcreate : create t path schema codecName interval marker = .ok w₀)
    {calls : List (Call schema)}
    (hclose : close (calls.foldl (fun w call => call.perform w) w₀) = .ok () w) :
    w.file = (assembly schema w₀.codec marker (batches (max interval 1) [] calls)).content := by
  have hcreated := created_of_create hcreate
  obtain ⟨w', hclose', hfile⟩ := close_of_room hcreated (room_of_close hcreated calls hclose) calls
  cases hclose.symm.trans hclose'
  rw [content_assembly]
  exact hfile

theorem payload_le_assembly {batches : List (List Entry)} {batch : List Entry}
    (h : batch ∈ batches) : (codec.packed (Entry.data batch)).length ≤
      (assembly schema codec marker batches).content.length := by
  have hpayload : _ ≤ (Entry.toBytes codec marker batches).length := payload_le_toBytes h
  rw [content_assembly, List.length_append]
  omega

/-- The closed file is the container of the batches, if they fit. -/
theorem sound_of_close [Deflate.Conforming] {t : FileTree} {path codecName : Bytes} {interval : Nat}
    {w₀ w : Writer} (hcreate : create t path schema codecName interval marker = .ok w₀)
    {calls : List (Call schema)} (hcalls : calls.length < 2 ^ 63)
    (hclose : close (calls.foldl (fun w call => call.perform w) w₀) = .ok () w)
    (hfits : ∀ batch ∈ batches (max interval 1) [] calls, w₀.codec.Fits (Entry.data batch))
    (hlength : w.file.length < 2 ^ 63) :
    (assembly schema w₀.codec marker (batches (max interval 1) [] calls)).Sound := by
  rw [file_of_close hcreate hclose] at hlength
  refine assembly_sound (created_of_create hcreate).codec_found (fun batch hbatch => ?_) hlength
  exact sound_of_calls hcalls hbatch (hfits batch hbatch)
    (Nat.lt_of_le_of_lt (payload_le_assembly hbatch) hlength)

/-- Whatever a writer is asked for, a reader of its closed file that decodes by the schema of
the file returns exactly the records that were accepted, in their order, and then says that
there is none. Counts and lengths are assumed to fit into 63 bits. -/
theorem reader_returns_accepted [Deflate.Conforming] (hname : schema.name ≠ [])
    (hfields : ∀ f ∈ schema.fields, f.name ≠ []) {t : FileTree} {path codecName : Bytes}
    {interval : Nat} {marker : SyncMarker} {w₀ w : Writer}
    (hcreate : create t path schema codecName interval marker = .ok w₀)
    (calls : List (Call schema)) (hcalls : calls.length < 2 ^ 63)
    (hclose : close (calls.foldl (fun w call => call.perform w) w₀) = .ok () w)
    (hfits : ∀ batch ∈ batches (max interval 1) [] calls, w₀.codec.Fits (Entry.data batch))
    (hlength : w.file.length < 2 ^ 63) {t' : FileTree} {source : Source} {number : Nat}
    (hentry : t'.entry source.path = .ok (.file number w.file)) (hstart : source.start = 0)
    (hstop : source.stop = Source.unbounded) (hbinding : source.binding = .ofFile)
    (scanSize : UInt64) :
    ∃ r : ContainerReader Record, ContainerReader.create t' source scanSize = .ok r ∧
      ContainerReader.Returns (ContainerReader.start t' r) (calls.flatMap Call.records) := by
  have hfile := file_of_close hcreate hclose
  have hassembled := sound_of_close hcreate hcalls hclose hfits hlength
  have hflat := flatten_batches (max interval 1) [] calls
  rw [List.nil_append] at hflat
  rw [hfile] at hentry
  have hdecoding := decoding_assembly hname hfields hassembled
  rw [← hbinding] at hdecoding
  obtain ⟨r, hrun, hreturns⟩ :=
    ContainerReader.returns_whole hentry hstart hstop hdecoding scanSize
  rw [records_assembly, hflat, List.map_flatMap] at hreturns
  exact ⟨r, hrun, hreturns⟩

end Service

def owl : Bird := ⟨1, "owl", "high", 2⟩

def jay : Record := ⟨Bird.schema, [.long 3, .string "jay", .string "", .long (-1)]⟩

/-- A record of birds and one of another schema, a bird, a sync and the bird again. -/
def birdCalls : List (Call Bird.schema) :=
  [.append jay rfl, .append (Record.ofSchema FixedRecord.schema) rfl, .appendTyped owl rfl, .sync,
    .appendEncoded (Bird.encode owl) (LawfulRecord.toRecord owl) (by decide +kernel)]

def treeOf (w : Writer) : FileTree where
  entries := [(["birds"], .file 0 w.file)]
  made := 1

def birdSource : Source := { Source.ofPattern "birds" with mode := .file }

/-- A writer on a device with room, for any calls. -/
theorem close_alone {codecName : Bytes} {codec : Codec}
    (hcodec : CodecRegistry.standard.create codecName = .ok codec) (schema : Schema) (interval : Nat)
    (calls : List (Call schema)) : ∃ w₀ w : Writer,
      create {} "birds" schema codecName interval .zero = .ok w₀ ∧ w₀.codec = codec ∧
      close (calls.foldl (fun w call => call.perform w) w₀) = .ok () w ∧
      w.file = (assembly schema codec .zero (batches (max interval 1) [] calls)).content := by
  have hdevice : FileTree.untilZero "birds" ≠ fullDevice := by decide
  have hplace : (({} : FileTree).creatable? "birds").isSome := by decide +kernel
  obtain ⟨w₀, hcreate, hroom⟩ := create_of_creatable hcodec hdevice hplace schema interval .zero
  have hcreated := created_of_create hcreate
  obtain rfl : w₀.codec = codec := Except.ok.inj (hcreated.codec_found.symm.trans hcodec)
  obtain ⟨w, hclose, -⟩ := close_of_room hcreated hroom calls
  exact ⟨w₀, w, hcreate, rfl, hclose, file_of_close hcreate hclose⟩

theorem close_birds : ∃ w₀ w : Writer,
    create {} "birds" Bird.schema "null" 20 .zero = .ok w₀ ∧ w₀.codec = .null ∧
    close (birdCalls.foldl (fun w call => call.perform w) w₀) = .ok () w ∧
    w.file = (headerFor Bird.schema .null .zero).toBytes ++
      Entry.toBytes .null .zero (batches (max 20 1) [] birdCalls) := by
  have hnull : CodecRegistry.standard.create "null" = .ok .null := rfl
  obtain ⟨w₀, w, hcreate, hcodec, hclose, hfile⟩ := close_alone hnull Bird.schema 20 birdCalls
  exact ⟨w₀, w, hcreate, hcodec, hclose, hfile.trans (content_assembly _)⟩

theorem reader_returns_birds : ∃ (w₀ w : Writer) (r : ContainerReader Record),
    create {} "birds" Bird.schema "null" 20 .zero = .ok w₀ ∧
    close (birdCalls.foldl (fun w call => call.perform w) w₀) = .ok () w ∧
    ContainerReader.create w.treeOf birdSource 4096 = .ok r ∧
    ContainerReader.Returns (ContainerReader.start w.treeOf r)
      [jay, LawfulRecord.toRecord owl, LawfulRecord.toRecord owl] := by
  obtain ⟨w₀, w, hcreate, hcodec, hclose, hfile⟩ := close_birds
  have hfits : ∀ batch ∈ batches (max 20 1) [] birdCalls, w₀.codec.Fits (Entry.data batch) := by
    rw [hcodec]
    exact fun _ _ => trivial
  have hlength : w.file.length < 2 ^ 63 := by
    rw [hfile]
    decide +kernel
  have hentry : w.treeOf.entry birdSource.path = .ok (.file 0 w.file) := rfl
  obtain ⟨r, hrun, hreturns⟩ := reader_returns_accepted (by decide) (by decide) hcreate birdCalls
    (by decide) hclose hfits hlength hentry rfl rfl rfl 4096
  exact ⟨w₀, w, r, hcreate, hclose, hrun, hreturns⟩

end Writer
end BlockContainer
