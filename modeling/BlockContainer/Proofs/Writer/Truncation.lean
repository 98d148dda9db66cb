import BlockContainer.Proofs.Writer.Shortfall

/-! # Written files that are cut off

A file that a writer has closed can be cut off anywhere. In the header a reader notices it
while it opens the file. Behind the header it returns the records of the blocks that are
complete, and then notices it, unless the cut is where one of the blocks ends.
-/
namespace BlockContainer

namespace ContainerReader

variable {α : Type} [RecordType α] {t : FileTree} {source : Source} {number : Nat} {content : Bytes}

/-- A file whose header cannot be read is not opened. -/
theorem begin_of_bad_header (hentry : t.entry source.path = .ok (.file number content))
    {e : FormatError} {reading : HeaderReading}
    (hread : Header.read { stream := .ofBytes .file content, header := {} } = .error e reading)
    (scanSize : UInt64) :
    ∃ r : ContainerReader α, begin t (unstarted source scanSize content.length) =
      .error (.format e) r := by
  obtain ⟨blocks, hopen⟩ := BlockReader.openFile_of_bad_header (t := t)
    (r := (unstarted source scanSize content.length : ContainerReader α).blocks) hentry rfl rfl
    hread
  rw [begin_apply rfl, hopen]
  exact ⟨_, rfl⟩

/-- A file that begins with a container is opened, and its header is that of the container. -/
theorem begin_of_begins {c : Container α} (hbegins : c.content <+: content)
    (hlength : content.length < 2 ^ 63)
    (hentry : t.entry source.path = .ok (.file number content)) (hstart : source.start = 0)
    (hdecoding : RecordType.decoding source.binding c.header = .ok c.decoding) (scanSize : UInt64) :
    ∃ r : ContainerReader α, begin t (unstarted source scanSize content.length) = .ok () r ∧
      r.blocks.header = c.header := by
  obtain ⟨s, hread⟩ := c.header_read_of_begins hbegins
  obtain ⟨s', hopen, -⟩ := BlockReader.openFile_from_start (t := t)
    (r := (unstarted source scanSize content.length : ContainerReader α).blocks) hentry hlength rfl
    rfl hstart hread c.codec_found
  rw [begin_apply rfl, hopen]
  simp only [unstarted, hdecoding]
  exact ⟨_, rfl, rfl⟩

end ContainerReader

namespace Writer

section Service

variable [Deflate.Service] {schema : Schema} {codec : Codec} {marker : SyncMarker}

/-- Bytes behind the header belong to a block, and before it there are complete ones. -/
theorem Entry.pending_of_lt {batches : List (List Entry)} {k : Nat}
    (hk : k < (toBytes codec marker batches).length) :
    ∃ complete pending rest, batches = complete ++ pending :: rest ∧
      (toBytes codec marker complete).length ≤ k ∧
      k < (toBytes codec marker (complete ++ [pending])).length := by
  induction batches generalizing k with
  | nil => cases hk
  | cons batch batches ih =>
    have hcons (l : List (List Entry)) : (toBytes codec marker (batch :: l)).length =
        ((block codec batch).toBytes marker).length + (toBytes codec marker l).length := by
      rw [toBytes, List.flatMap_cons, List.length_append]
      rfl
    rw [hcons] at hk
    by_cases hfirst : k < ((block codec batch).toBytes marker).length
    · refine ⟨[], batch, batches, rfl, Nat.zero_le _, ?_⟩
      rw [List.nil_append, hcons]
      omega
    · obtain ⟨complete, pending, rest, rfl, hle, hlt⟩ :=
        ih (k := k - ((block codec batch).toBytes marker).length) (by omega)
      refine ⟨batch :: complete, pending, rest, rfl, ?_, ?_⟩
      · rw [hcons]
        omega
      · rw [List.cons_append, hcons]
        omega

def fileOf (schema : Schema) (codec : Codec) (marker : SyncMarker) (batches : List (List Entry)) :
    Bytes :=
  (headerFor schema codec marker).toBytes ++ Entry.toBytes codec marker batches

/-- What a reader makes of the first bytes of a file with these batches. A cut in the header
is a fault of the bytes. Otherwise the header is the one that was written, and what the reader
returns are the records of the complete blocks; if part of a block follows them, that is a
fault of the bytes too. A compressor counts bytes with 32 bits and loses those that it cannot
count, so if the complete blocks do not fit, the reader fails before it has returned them all. -/
structure ReadsCut (schema : Schema) (codec : Codec) (marker : SyncMarker)
    (batches : List (List Entry)) (k : Nat) (t : FileTree) (r : ContainerReader Record) : Prop where
  in_header : k < (headerFor schema codec marker).toBytes.length → ∃ cause r',
    ContainerReader.begin t r = .error (.format cause) r' ∧
    ContainerReader.start t r = .error (.format cause) r'
  opens : (headerFor schema codec marker).toBytes.length ≤ k → ∃ r',
    ContainerReader.begin t r = .ok () r' ∧ r'.blocks.header = { headerFor schema codec marker with
      size := (headerFor schema codec marker).toBytes.length }
  in_blocks : (headerFor schema codec marker).toBytes.length ≤ k →
    ∃ complete pending rest, batches = complete ++ pending :: rest ∧
      (fileOf schema codec marker complete).length ≤ k ∧
      k < (fileOf schema codec marker (complete ++ [pending])).length ∧
      ((∀ batch ∈ complete, codec.Fits (Entry.data batch)) →
        if k = (fileOf schema codec marker complete).length then
          ContainerReader.Returns (ContainerReader.start t r) (complete.flatten.map Entry.record)
        else ContainerReader.ReturnsUntil Error.InBytes (ContainerReader.start t r)
          (complete.flatten.map Entry.record)) ∧
      ((∃ batch ∈ complete, ¬codec.Fits (Entry.data batch)) →
        (∀ e ∈ complete.flatten, e.bytes.length < 2 ^ 63) →
        ContainerReader.ReturnsPart (ContainerReader.start t r)
          (complete.flatten.map Entry.record))

variable {complete rest : List (List Entry)} {pending : List Entry} {k : Nat}

theorem fileOf_append (complete rest : List (List Entry)) :
    fileOf schema codec marker (complete ++ rest) =
      fileOf schema codec marker complete ++ Entry.toBytes codec marker rest := by
  rw [fileOf, Entry.toBytes, List.flatMap_append, ← List.append_assoc]
  rfl

/-- A cut behind the complete blocks leaves a file that goes on behind them. -/
theorem extends_of_cut (h : (assembly schema codec marker complete).Sound)
    (hlength : (fileOf schema codec marker (complete ++ rest)).length < 2 ^ 63)
    (hbehind : (fileOf schema codec marker complete).length < k)
    (hk : k < (fileOf schema codec marker (complete ++ rest)).length) {stop : UInt64}
    (hstop : k ≤ stop.toNat) :
    ((assembly schema codec marker complete).container h).Extends
      ((fileOf schema codec marker (complete ++ rest)).take k) stop := by
  have hcontent : ((assembly schema codec marker complete).container h).content =
      fileOf schema codec marker complete := content_assembly complete
  have htaken : ((fileOf schema codec marker (complete ++ rest)).take k).length = k := by
    rw [List.length_take]
    omega
  constructor
  · rw [hcontent, List.prefix_take_iff, fileOf_append]
    exact ⟨List.prefix_append _ _, Nat.le_of_lt hbehind⟩
  · rwa [hcontent, htaken]
  · omega
  · rw [hcontent]
    omega

/-- A cut in a block leaves what goes on behind the complete blocks, but not with a block. -/
theorem torn_of_cut (h : (assembly schema codec marker complete).Sound)
    (hcount : pending.length < 2 ^ 63)
    (hlength : (fileOf schema codec marker (complete ++ pending :: rest)).length < 2 ^ 63)
    (hbehind : (fileOf schema codec marker complete).length < k)
    (hbefore : k < (fileOf schema codec marker (complete ++ [pending])).length) :
    ((assembly schema codec marker complete).container h).Torn
      ((fileOf schema codec marker (complete ++ pending :: rest)).take k) := by
  have hcontent : ((assembly schema codec marker complete).container h).content =
      fileOf schema codec marker complete := content_assembly complete
  have hblock (rest : List (List Entry)) : Entry.toBytes codec marker (pending :: rest) =
      (Entry.block codec pending).toBytes marker ++ Entry.toBytes codec marker rest :=
    List.flatMap_cons
  have hpayload : (codec.packed (Entry.data pending)).length ≤
      (Entry.toBytes codec marker (pending :: rest)).length := payload_le_toBytes (by simp)
  rw [fileOf_append, hblock, Entry.toBytes, List.flatMap_nil, List.append_nil,
    List.length_append] at hbefore
  rw [fileOf_append] at hlength ⊢
  rw [hblock] at hlength hpayload ⊢
  simp only [List.length_append] at hlength hpayload
  obtain ⟨framing, hpending⟩ := spelled_block codec marker hcount
    (Nat.lt_of_le_of_lt hpayload (by omega))
  intro b framing' bytes hspelled hbegins
  rw [hcontent, List.drop_take, List.drop_left,
    List.take_append_of_le_length (by omega)] at hbegins
  have hsame := hspelled.eq_of_begins hpending (hbegins.trans (List.take_prefix _ _))
  have hshort := hbegins.length_le
  rw [hsame, List.length_take] at hshort
  omega

/-- A reader of a file that is cut behind complete blocks returns their records, and then says
that there is none if no part of a block follows, and otherwise fails. -/
theorem returns_complete (hname : schema.name ≠ []) (hfields : ∀ f ∈ schema.fields, f.name ≠ [])
    (h : (assembly schema codec marker complete).Sound) (hcount : pending.length < 2 ^ 63)
    (hlength : (fileOf schema codec marker (complete ++ pending :: rest)).length < 2 ^ 63)
    (hbehind : (fileOf schema codec marker complete).length ≤ k)
    (hbefore : k < (fileOf schema codec marker (complete ++ [pending])).length)
    {t : FileTree} {source : Source} {number : Nat} {content : Bytes}
    (hcut : content = (fileOf schema codec marker (complete ++ pending :: rest)).take k)
    (hentry : t.entry source.path = .ok (.file number content)) (hstart : source.start = 0)
    (hstop : source.stop = Source.unbounded) (hbinding : source.binding = .ofFile)
    (scanSize : UInt64) :
    let r := ContainerReader.unstarted source scanSize content.length
    if k = (fileOf schema codec marker complete).length then
      ContainerReader.Returns (ContainerReader.start t r) (complete.flatten.map Entry.record)
    else ContainerReader.ReturnsUntil Error.InBytes (ContainerReader.start t r)
      (complete.flatten.map Entry.record) := by
  have hdecoding := decoding_assembly hname hfields h
  rw [← hbinding] at hdecoding
  rw [← records_assembly h]
  intro r
  split
  · next hwhole =>
    have hall : content = ((assembly schema codec marker complete).container h).content := by
      rw [hcut, fileOf_append, hwhole, List.take_left]
      exact (content_assembly complete).symm
    rw [hall] at hentry
    obtain ⟨r', hcreate, hreturns⟩ :=
      ContainerReader.returns_whole hentry hstart hstop hdecoding scanSize
    rw [ContainerReader.create_of_entry hentry scanSize] at hcreate
    cases hcreate
    rw [← hall] at hreturns
    exact hreturns
  · next hne =>
    have hparts : (fileOf schema codec marker (complete ++ [pending])).length ≤
        (fileOf schema codec marker (complete ++ pending :: rest)).length := by
      rw [List.append_cons complete pending rest, fileOf_append (complete ++ [pending]) rest]
      exact (List.prefix_append _ _).length_le
    have htaken : content.length = k := by
      rw [hcut, List.length_take]
      omega
    have hend : k ≤ (ContainerReader.rangeEnd source content).toNat := by
      rw [ContainerReader.rangeEnd_unbounded hstart hstop (by omega), htaken]
    subst hcut
    exact ContainerReader.returnsUntil_torn
      (extends_of_cut h hlength (by omega) (by omega) hend)
      (torn_of_cut h hcount hlength (by omega) hbefore) hentry hstart hdecoding

section Cut

variable {all : List (List Entry)} {codecName content : Bytes} {t : FileTree} {source : Source}
variable {number : Nat}

/-- A file that is cut off in its header is not opened. -/
theorem begin_of_cut_header (hcut : (fileOf schema codec marker all).take k = content)
    (hshort : content.length < (headerFor schema codec marker).toBytes.length)
    (hlength : (headerFor schema codec marker).toBytes.length < 2 ^ 63)
    (hentry : t.entry source.path = .ok (.file number content)) (scanSize : UInt64) :
    ∃ cause r, ContainerReader.begin (α := Record) t
      (.unstarted source scanSize content.length) = .error (.format cause) r := by
  have hbegins : content <+: (headerFor schema codec marker).toBytes ++
      Entry.toBytes codec marker all := by
    rw [← hcut]
    exact List.take_prefix _ _
  have hfits : (headerFor schema codec marker).metadata.Fits := by
    refine ⟨size_headerFor schema codec marker, fun e he => ?_⟩
    have hentry := Header.entry_le_toBytes he
    exact ⟨by omega, by omega⟩
  obtain ⟨e, reading, hread⟩ := Header.read_cut_off hfits hbegins hshort {}
  obtain ⟨r, hrun⟩ := ContainerReader.begin_of_bad_header (α := Record) hentry hread scanSize
  exact ⟨e, r, hrun⟩

/-- A file that is cut off behind its header is opened, and the header is what it was. -/
theorem begin_of_cut_behind [Deflate.Conforming] (hname : schema.name ≠ [])
    (hfields : ∀ f ∈ schema.fields, f.name ≠ [])
    (hcodec : CodecRegistry.standard.create codecName = .ok codec)
    (hcut : (fileOf schema codec marker all).take k = content)
    (hbehind : (headerFor schema codec marker).toBytes.length ≤ k)
    (hlength : content.length < 2 ^ 63)
    (hentry : t.entry source.path = .ok (.file number content)) (hstart : source.start = 0)
    (hbinding : source.binding = .ofFile) (scanSize : UInt64) :
    ∃ r, ContainerReader.begin (α := Record) t (.unstarted source scanSize content.length) =
      .ok () r ∧ r.blocks.header = { headerFor schema codec marker with
        size := (headerFor schema codec marker).toBytes.length } := by
  have hempty : (assembly schema codec marker []).content =
      (headerFor schema codec marker).toBytes := by
    rw [content_assembly, Entry.toBytes, List.flatMap_nil, List.append_nil]
  have hbegins : (assembly schema codec marker []).content <+: content := by
    rw [← hcut, List.prefix_take_iff, hempty]
    exact ⟨List.prefix_append _ _, hbehind⟩
  have hnone : (assembly schema codec marker []).Sound := by
    apply assembly_sound hcodec
    · intro batch hbatch
      cases hbatch
    · exact Nat.lt_of_le_of_lt hbegins.length_le hlength
  have hdecoding := decoding_assembly hname hfields hnone
  rw [← hbinding] at hdecoding
  exact ContainerReader.begin_of_begins (c := (assembly schema codec marker []).container hnone)
    hbegins hlength hentry hstart hdecoding scanSize

/-- A cut behind the header has complete blocks before it and is in the block behind them. -/
theorem complete_of_cut (hbehind : (headerFor schema codec marker).toBytes.length ≤ k)
    (hk : k < (fileOf schema codec marker all).length) :
    ∃ complete pending rest, all = complete ++ pending :: rest ∧
      (fileOf schema codec marker complete).length ≤ k ∧
      k < (fileOf schema codec marker (complete ++ [pending])).length := by
  have hlength (batches : List (List Entry)) : (fileOf schema codec marker batches).length =
      (headerFor schema codec marker).toBytes.length +
        (Entry.toBytes codec marker batches).length := List.length_append
  rw [hlength] at hk
  obtain ⟨complete, pending, rest, rfl, hle, hlt⟩ := Entry.pending_of_lt
    (k := k - (headerFor schema codec marker).toBytes.length) (Nat.sub_lt_left_of_lt_add hbehind hk)
  refine ⟨complete, pending, rest, rfl, ?_, ?_⟩
  · rw [hlength]
    omega
  · rw [hlength]
    omega

/-- The complete blocks of a file can be read, if the file can. -/
theorem sound_complete [Deflate.Conforming]
    (hcodec : CodecRegistry.standard.create codecName = .ok codec)
    {interval : Nat} {calls : List (Call schema)} (hcalls : calls.length < 2 ^ 63)
    (hbatches : batches interval [] calls = complete ++ rest)
    (hlength : (fileOf schema codec marker complete).length < 2 ^ 63)
    (hfits : ∀ batch ∈ complete, codec.Fits (Entry.data batch)) :
    (assembly schema codec marker complete).Sound := by
  have hcontent : (assembly schema codec marker complete).content =
      fileOf schema codec marker complete := content_assembly complete
  apply assembly_sound hcodec
  · intro batch hbatch
    have hmem : batch ∈ batches interval [] calls := by
      rw [hbatches]
      exact List.mem_append_left _ hbatch
    have hpayload : _ ≤ (Entry.toBytes codec marker complete).length := payload_le_toBytes hbatch
    rw [fileOf, List.length_append] at hlength
    exact sound_of_calls hcalls hmem (hfits batch hbatch) (by omega)
  · rw [hcontent]
    exact hlength

end Cut

/-- A file that a writer has closed can be cut off anywhere. A cut in the header is a fault of
the bytes. Otherwise a reader of what is left has the header that was written and returns the
records of the complete blocks, which are the first of those that were accepted, if these blocks
fit. Then it says that there is none if the cut is where the header or a block ends, and
otherwise it fails because of the bytes. Counts and lengths are assumed to fit into 63 bits. -/
theorem readsCut_of_take [Deflate.Conforming] (hname : schema.name ≠ [])
    (hfields : ∀ f ∈ schema.fields, f.name ≠ [])
    {t : FileTree} {path codecName : Bytes} {interval : Nat} {marker : SyncMarker} {w₀ w : Writer}
    (hcreate : create t path schema codecName interval marker = .ok w₀)
    (calls : List (Call schema)) (hcalls : calls.length < 2 ^ 63)
    (hclose : close (calls.foldl (fun w call => call.perform w) w₀) = .ok () w)
    (hlength : w.file.length < 2 ^ 63) {k : Nat} (hk : k < w.file.length) {t' : FileTree}
    {source : Source} {number : Nat}
    (hentry : t'.entry source.path = .ok (.file number (w.file.take k)))
    (hstart : source.start = 0) (hstop : source.stop = Source.unbounded)
    (hbinding : source.binding = .ofFile) (scanSize : UInt64) :
    w.file = fileOf schema w₀.codec marker (batches (max interval 1) [] calls) ∧
    (batches (max interval 1) [] calls).flatten.map Entry.record = calls.flatMap Call.records ∧
    ∃ r : ContainerReader Record, ContainerReader.create t' source scanSize = .ok r ∧
      ReadsCut schema w₀.codec marker (batches (max interval 1) [] calls) k t' r := by
  have hcreated := created_of_create hcreate
  obtain ⟨w', hclose', hfile⟩ := close_of_room hcreated (room_of_close hcreated calls hclose) calls
  cases hclose.symm.trans hclose'
  have hrecords := flatten_batches (max interval 1) [] calls
  rw [List.nil_append] at hrecords
  refine ⟨hfile, by rw [hrecords, List.map_flatMap]; rfl, _,
    ContainerReader.create_of_entry hentry scanSize, ?_⟩
  have hfile : w.file = fileOf schema w₀.codec marker (batches (max interval 1) [] calls) := hfile
  have hcontent : (w.file.take k).length = k := by
    rw [List.length_take]
    omega
  have hcut := (congrArg (List.take k) hfile).symm
  rw [hfile] at hk hlength
  constructor
  · intro hshort
    have hheader : (headerFor schema w₀.codec marker).toBytes.length ≤
        (fileOf schema w₀.codec marker (batches (max interval 1) [] calls)).length :=
      (List.prefix_append _ _).length_le
    obtain ⟨cause, r, hbegin⟩ := begin_of_cut_header hcut (by omega) (by omega) hentry scanSize
    refine ⟨cause, r, hbegin, ?_⟩
    rw [ContainerReader.start_eq_begin]
    exact Runs.bind_of_error hbegin
  · intro hbehind
    exact begin_of_cut_behind hname hfields hcreated.codec_found hcut hbehind (by omega) hentry
      hstart hbinding scanSize
  · intro hbehind
    obtain ⟨complete, pending, rest, hbatches, hle, hlt⟩ := complete_of_cut hbehind hk
    refine ⟨complete, pending, rest, hbatches, hle, hlt, fun hfits => ?_, fun hlong hlengths => ?_⟩
    · have hpending : pending ∈ batches (max interval 1) [] calls := by simp [hbatches]
      have hcount :=
        Nat.le_trans (sublist_of_mem_batches hpending).length_le (length_entries_le calls)
      have hcomplete : (fileOf schema w₀.codec marker complete).length < 2 ^ 63 := by omega
      have hsound := sound_complete hcreated.codec_found hcalls hbatches hcomplete hfits
      rw [hbatches] at hlength hcut
      exact returns_complete hname hfields hsound (Nat.lt_of_le_of_lt hcount hcalls) hlength hle hlt
        hcut.symm hentry hstart hstop hbinding scanSize
    · have hbegins : (assembly schema w₀.codec marker complete).content <+: w.file.take k := by
        have hcontent : (assembly schema w₀.codec marker complete).content =
            fileOf schema w₀.codec marker complete := content_assembly complete
        rw [hfile, hbatches, fileOf_append, hcontent, List.prefix_take_iff]
        exact ⟨List.prefix_append _ _, hle⟩
      have hend := ContainerReader.rangeEnd_unbounded hstart hstop
        (by omega : (w.file.take k).length < 2 ^ 63)
      refine returnsPart_of_long hname hfields hcreated.codec_found (fun batch hbatch => ?_)
        (by simp) hlong hbegins (by omega) hentry (.inl ⟨hstart, rfl⟩)
        (hend ▸ hbegins.length_le) hbinding
      have hmem : batch ∈ batches (max interval 1) [] calls := by
        rw [hbatches]
        exact List.mem_append_left _ hbatch
      exact Entry.encoded_of_calls hcalls hmem fun e he =>
        hlengths e (List.mem_flatten_of_mem hbatch he)

end Service

def cutTreeOf (w : Writer) (k : Nat) : FileTree where
  entries := [(["birds"], .file 0 (w.file.take k))]
  made := 1

/-- The second block is cut off behind 14 of its 29 bytes. -/
theorem readsCut_birds : ∃ (w₀ w : Writer) (r : ContainerReader Record),
    create {} "birds" Bird.schema "null" 20 .zero = .ok w₀ ∧
    close (birdCalls.foldl (fun w call => call.perform w) w₀) = .ok () w ∧ w.file.length = 325 ∧
    ContainerReader.create (w.cutTreeOf 310) birdSource 4096 = .ok r ∧
    ContainerReader.ReturnsUntil Error.InBytes (ContainerReader.start (w.cutTreeOf 310) r)
      [jay, LawfulRecord.toRecord owl] := by
  obtain ⟨w₀, w, hcreate, hcodec, hclose, hfile⟩ := close_birds
  have hlength : w.file.length = 325 := by
    rw [hfile]
    decide +kernel
  have hentry : (w.cutTreeOf 310).entry birdSource.path = .ok (.file 0 (w.file.take 310)) := rfl
  obtain ⟨-, -, r, hrun, hreads⟩ := readsCut_of_take (by decide) (by decide) hcreate birdCalls
    (by decide) hclose (by rw [hlength]; decide) (by rw [hlength]; decide) hentry rfl rfl rfl 4096
  rw [hcodec] at hreads
  have hheader : (headerFor Bird.schema .null .zero).toBytes.length ≤ 310 := by decide +kernel
  obtain ⟨complete, pending, rest, hbatches, hle, hlt, hreturns, -⟩ := hreads.in_blocks hheader
  have hcomplete : complete = (batches (max 20 1) [] birdCalls).take complete.length := by
    rw [hbatches, List.take_left]
  have hnext : complete ++ [pending] =
      (batches (max 20 1) [] birdCalls).take (complete.length + 1) := by
    have hsize : (complete ++ [pending]).length = complete.length + 1 := by simp
    rw [hbatches, List.append_cons complete pending rest, List.take_left' hsize]
  have hcount : complete.length + (rest.length + 1) = 2 :=
    (List.length_append.symm.trans (congrArg List.length hbatches).symm).trans (by decide +kernel)
  rw [hnext] at hlt
  generalize complete.length = n at hcomplete hcount hlt
  obtain rfl : n = 1 := by
    rcases n with _ | _ | n
    · revert hlt
      decide +kernel
    · rfl
    · omega
  subst hcomplete
  have hne : 310 ≠ (fileOf Bird.schema .null .zero
      ((batches (max 20 1) [] birdCalls).take 1)).length := by
    decide +kernel
  have hrecords : ((batches (max 20 1) [] birdCalls).take 1).flatten.map Entry.record =
      [jay, LawfulRecord.toRecord owl] := by
    decide +kernel
  have hends := hreturns fun _ _ => trivial
  rw [if_neg hne, hrecords] at hends
  exact ⟨w₀, w, r, hcreate, hclose, hlength, hrun, hends⟩

/-- Of two blocks that hold a record of 2 ^ 32 bytes each, the first is complete before the cut. Its
record does not come back. -/
theorem start_fails_at_cut : ∃ (value : Bytes) (w₀ w : Writer) (k : Nat)
    (r : ContainerReader Record), value = List.replicate (2 ^ 32 - 5) 0 ∧
    create {} "birds" FixedRecord.schema "deflate" 20 .zero = .ok w₀ ∧
    close ((longCalls value).foldl (fun w call => call.perform w) w₀) = .ok () w ∧
    w.file = longFile value 2 ∧ k = (longFile value 1).length ∧ k < w.file.length ∧
    ContainerReader.create (w.cutTreeOf k) birdSource 4096 = .ok r ∧
    ∃ cause r', ContainerReader.start (w.cutTreeOf k) r = .error (.format cause) r' := by
  have hvalue : (List.replicate (2 ^ 32 - 5) (0 : UInt8)).length = 2 ^ 32 - 5 :=
    List.length_replicate
  refine ⟨List.replicate (2 ^ 32 - 5) 0, ?_⟩
  generalize List.replicate (2 ^ 32 - 5) (0 : UInt8) = value at hvalue ⊢
  obtain ⟨w₀, w, hcreate, -, hclose, hfile⟩ := close_long hvalue
  obtain ⟨⟨behind, hparts⟩, hshort⟩ := longFile_prefix value
  have hlength := length_longFile hvalue
  have hcut : w.file.take (longFile value 1).length = longFile value 1 := by
    rw [hfile, ← hparts, List.take_left]
  have hentry : (w.cutTreeOf (longFile value 1).length).entry birdSource.path =
      .ok (.file 0 (w.file.take (longFile value 1).length)) := rfl
  rw [hcut] at hentry
  have hend : (ContainerReader.rangeEnd birdSource _).toNat = _ :=
    ContainerReader.rangeEnd_unbounded rfl rfl (Nat.lt_trans hshort hlength)
  exact ⟨w₀, w, _, _, rfl, hcreate, hclose, hfile, rfl, hfile ▸ hshort,
    ContainerReader.create_of_entry hentry 4096,
    start_fails_of_long hvalue (List.prefix_refl _) (Nat.lt_trans hshort hlength) hentry rfl
      (Nat.le_of_eq hend.symm) rfl 4096⟩

end Writer
end BlockContainer
