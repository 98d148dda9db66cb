import BlockContainer.Proofs.Writer.Shortfall

/-! # Offsets that a writer returns

A sync returns the length of the file up to the records that are waiting, which go out with
it. So a range between the offsets of two syncs has the records that were accepted between
them, and nothing has to be known about where else the marker stands in the file.
-/
namespace BlockContainer.Writer

variable {schema : Schema} {codec : Codec} {marker : SyncMarker}

/-- A sync divides the batches into those before it and those behind. -/
theorem batches_append_sync {interval : Nat} {waiting : List Entry}
    (before rest : List (Call schema)) :
    batches interval waiting (before ++ .sync :: rest) =
      batches interval waiting before ++ batches interval [] (.sync :: rest) := by
  induction before generalizing waiting with
  | nil => rfl
  | cons call before ih =>
    rw [List.cons_append, batches, ih, ← List.append_assoc]
    rfl

theorem batches_take_drop {interval k : Nat} {waiting : List Entry} {calls : List (Call schema)}
    (hk : calls[k]? = some .sync) :
    batches interval waiting calls =
      batches interval waiting (calls.take k) ++ batches interval [] (calls.drop k) := by
  obtain ⟨hlt, hget⟩ := List.getElem?_eq_some_iff.1 hk
  have hdrop : calls.drop k = .sync :: calls.drop (k + 1) := by
    rw [← hget]
    exact List.drop_eq_getElem_cons hlt
  rw [hdrop, ← batches_append_sync, ← hdrop, List.take_append_drop]

theorem batches_take_of_le {interval i j : Nat} {waiting : List Entry} {calls : List (Call schema)}
    (hij : i ≤ j) (hi : calls[i]? = some .sync) :
    batches interval waiting (calls.take j) =
      batches interval waiting (calls.take i) ++ batches interval [] ((calls.take j).drop i) := by
  rcases Nat.eq_or_lt_of_le hij with rfl | hlt
  · rw [List.drop_take_self]
    exact (List.append_nil _).symm
  · have htaken : (calls.take j)[i]? = some .sync := by rw [List.getElem?_take_of_lt hlt, hi]
    rw [batches_take_drop htaken, List.take_take, Nat.min_eq_left hij]

theorem records_batches (interval : Nat) (calls : List (Call schema)) :
    (batches interval [] calls).flatten.map Entry.record = calls.flatMap Call.records := by
  rw [flatten_batches, List.nil_append, List.map_flatMap]
  rfl

section Service

variable [Deflate.Service]

/-- On a stream with room, the waiting records go out as one block, or nothing changes. -/
theorem writeWaiting_cases {w : Writer} (h : w.output.Delivers) :
    Runs.after writeWaiting w = w ∨ ∃ payload,
      let block : Block := { recordCount := Int64.ofInt w.waiting.length, payload }
      Runs.after writeWaiting w =
        emptied { w with output := w.output.behind (block.toBytes w.header.marker) } block
          (block.toBytes w.header.marker).length := by
  unfold Runs.after writeWaiting
  rw [Runs.get_bind]
  by_cases hempty : w.waiting.isEmpty = true
  · rw [if_pos hempty]
    exact .inl rfl
  · rw [if_neg hempty]
    by_cases hopen : w.isOpen = true
    · rw [Runs.ensure_bind hopen]
      cases hpayload : w.codec.compress w.waiting.reverse.flatten with
      | error e => exact .inl rfl
      | ok payload =>
        let block : Block := { recordCount := Int64.ofInt w.waiting.length, payload }
        have hwrite : block.write w.header.marker w.output = _ :=
          OutputStream.writeAll_of_delivers h (block.pieces w.header.marker)
        rw [Runs.check_bind rfl]
        exact .inr ⟨payload, by rw [Runs.bind_of_ok (Runs.focus_of_ok hwrite)]; rfl⟩
    · have hclosed : (ensure w.isOpen (.misuse (.writerClosed w.filename)) : Step Unit) w =
          .error (.misuse (.writerClosed w.filename)) w := by
        rw [ensure, if_neg hopen]
        rfl
      rw [Runs.bind_of_error hclosed]
      exact .inl rfl

structure Tallied (w : Writer) : Prop where
  delivers : w.output.Delivers
  written : w.bytesWritten = w.output.accepted.length

theorem lasting_tallied : Lasting Tallied where
  accept h _ := ⟨h.delivers, h.written⟩
  writeWaiting := by
    intro w h
    rcases writeWaiting_cases h.delivers with hsame | ⟨payload, hwritten⟩
    · rwa [hsame]
    · rw [hwritten]
      refine ⟨h.delivers.behind _, ?_⟩
      change w.bytesWritten + _ = (w.output.accepted ++ _).length
      rw [List.length_append, h.written]

omit [Deflate.Service] in
theorem Created.tallied {codecName : Bytes} {interval : Nat} {w₀ : Writer}
    (h : Created w₀ schema codecName interval marker) (hroom : w₀.output.full = false) :
    Tallied w₀ :=
  ⟨⟨hroom, h.not_failed⟩, by rw [h.written, h.accepted]⟩

/-- A sync returns the length of a file with the batches up to it. -/
theorem sync_of_created [Deflate.Conforming] {codecName : Bytes} {interval : Nat} {w₀ : Writer}
    (h : Created w₀ schema codecName interval marker) (hroom : w₀.output.full = false)
    (calls : List (Call schema)) :
    Runs.value? sync (calls.foldl (fun w call => call.perform w) w₀) =
      some (assembly schema w₀.codec marker
        (batches (max interval 1) [] calls)).content.length := by
  obtain rfl := h.schema_eq
  have hc := Codec.compresses_of_standard h.codec_found
  have htallied := lasting_tallied.performAll calls (h.tallied hroom)
  obtain ⟨sent, left, hleft, hbatches⟩ := (h.settled hroom).performAll hc calls
  obtain ⟨w', hwrite, hsettled⟩ := hleft.writeWaiting_ok hc
  have hsync : sync _ = .ok w'.bytesWritten w' := Runs.bind_of_ok hwrite
  rw [Runs.value?_of_ok hsync, (lasting_tallied.writeWaiting.of_ok htallied hwrite).written,
    hsettled.accepted, h.accepted, h.marker_eq, List.nil_append, ← hbatches, h.interval_eq,
    content_assembly]

/-- A reader of the range of a file, whatever the size of the chunks that it scans, decodes by
the schema of the file and comes to this. -/
def ReadsRange (file : Bytes) (start stop : Nat)
    (Outcome : EStateM.Result Error (ContainerReader Record) Bool → Prop) : Prop :=
  ∀ ⦃t : FileTree⦄ ⦃source : Source⦄ ⦃number : Nat⦄ ⦃scanSize : UInt64⦄,
    t.entry source.path = .ok (.file number file) → source.start.toNat = start →
    source.stop.toNat = stop → source.binding = .ofFile → 0 < scanSize →
    ∃ r : ContainerReader Record, ContainerReader.create t source scanSize = .ok r ∧
      Outcome (ContainerReader.start t r)

section Range

variable {all front middle back : List (List Entry)} {start : Nat}

theorem readsRange_of_append (hname : schema.name ≠ []) (hfields : ∀ f ∈ schema.fields, f.name ≠ [])
    (hall : all = front ++ middle ++ back) (hsound : (assembly schema codec marker all).Sound)
    (hstart : start = 0 ∧ front = [] ∨
      start = (assembly schema codec marker front).content.length) :
    ReadsRange (assembly schema codec marker all).content start
      (assembly schema codec marker (front ++ middle)).content.length
      (ContainerReader.Returns · (middle.flatten.map Entry.record)) := by
  intro t source number scanSize hentry hfirst hlast hbinding hscan
  have hdecoding := decoding_assembly hname hfields hsound
  rw [← hbinding] at hdecoding
  have hrecords := recordsIn_assembly hall hsound hstart
  have hends := length_assembly_append schema codec marker front middle
  have hwhole := length_assembly_append schema codec marker (front ++ middle) back
  rw [← hall] at hwhole
  beta_reduce
  rw [← hrecords, ← hfirst, ← hlast]
  refine ContainerReader.returns_of_cut hentry hdecoding hscan ?_ ?_ ?_
  · rcases hstart with ⟨hzero, -⟩ | hcut
    · exact .inl (UInt64.toNat_inj.1 (hfirst.trans hzero))
    · rw [List.append_assoc] at hall
      subst hall
      rw [hfirst, hcut]
      exact .inr (cut_assembly front (middle ++ back) hsound)
  · omega
  · rw [hlast]
    change _ ≤ (assembly schema codec marker all).content.length
    omega

/-- Where a batch of the range does not fit, and those before the range do, a reader fails. -/
theorem readsPart_of_append [Deflate.Conforming] (hname : schema.name ≠ [])
    (hfields : ∀ f ∈ schema.fields, f.name ≠ []) {codecName : Bytes}
    (hcodec : CodecRegistry.standard.create codecName = .ok codec)
    (hall : all = front ++ middle ++ back) (hencoded : ∀ batch ∈ all, Entry.Encoded schema batch)
    (hfront : ∀ batch ∈ front, codec.Fits (Entry.data batch))
    (hmiddle : ∃ batch ∈ middle, ¬codec.Fits (Entry.data batch))
    (hlength : (assembly schema codec marker all).content.length < 2 ^ 63)
    (hstart : start = 0 ∧ front = [] ∨
      start = (assembly schema codec marker front).content.length) :
    ReadsRange (assembly schema codec marker all).content start
      (assembly schema codec marker (front ++ middle)).content.length
      (ContainerReader.ReturnsPart · (middle.flatten.map Entry.record)) := by
  intro t source number scanSize hentry hfirst hlast hbinding hscan
  have hends := length_assembly_append schema codec marker front middle
  have hwhole := length_assembly_append schema codec marker (front ++ middle) back
  rw [← hall] at hwhole
  have hbegins : (assembly schema codec marker (front ++ middle)).content <+:
      (assembly schema codec marker all).content := by
    rw [hall, content_assembly_append schema codec marker (front ++ middle)]
    exact List.prefix_append _ _
  refine ⟨_, ContainerReader.create_of_entry hentry scanSize, ?_⟩
  refine returnsPart_of_long hname hfields hcodec (fun batch hbatch => hencoded batch ?_) hfront
    hmiddle hbegins hlength hentry (hstart.imp ?_ ?_) ?_ hbinding
  · rw [hall]
    exact List.mem_append_left _ hbatch
  · exact fun hzero => ⟨UInt64.toNat_inj.1 (hfirst.trans hzero.1), hzero.2⟩
  · exact fun hcut => ⟨hfirst.trans hcut, hscan⟩
  · rw [ContainerReader.rangeEnd_of_le (by omega) (by omega) hlength, hlast]

end Range

/-- The call at the index is a sync, and it returns the offset. -/
def SyncReturns (w₀ : Writer) (calls : List (Call schema)) (k offset : Nat) : Prop :=
  calls[k]? = some .sync ∧
    Runs.value? sync ((calls.take k).foldl (fun w call => call.perform w) w₀) = some offset

/-- What readers make of the parts of a file that a sync divides at the offset it returned. Where
all batches fit, the range of the file before the offset has the records that were accepted
before the sync, the range from it on those that were accepted after it, and the range between
the offsets of two syncs those that were accepted between them. Where one does not, a reader of
the one or of the other part fails before it has returned them all. -/
structure ReadsAround (w₀ : Writer) (file : Bytes) (batches : List (List Entry))
    (calls : List (Call schema)) (i s : Nat) : Prop where
  le_length : s ≤ file.length
  ordered : ∀ j s', i ≤ j → SyncReturns w₀ calls j s' → s ≤ s'
  before : (∀ batch ∈ batches, w₀.codec.Fits (Entry.data batch)) →
    ReadsRange file 0 s (ContainerReader.Returns · ((calls.take i).flatMap Call.records))
  behind : (∀ batch ∈ batches, w₀.codec.Fits (Entry.data batch)) →
    ReadsRange file s file.length (ContainerReader.Returns · ((calls.drop i).flatMap Call.records))
  between : (∀ batch ∈ batches, w₀.codec.Fits (Entry.data batch)) →
    ∀ j s', i ≤ j → SyncReturns w₀ calls j s' → ReadsRange file s s'
      (ContainerReader.Returns · (((calls.take j).drop i).flatMap Call.records))
  long : (∃ batch ∈ batches, ¬w₀.codec.Fits (Entry.data batch)) →
    (∀ e ∈ batches.flatten, e.bytes.length < 2 ^ 63) →
    ReadsRange file 0 s
      (ContainerReader.ReturnsPart · ((calls.take i).flatMap Call.records)) ∨
    ReadsRange file s file.length
      (ContainerReader.ReturnsPart · ((calls.drop i).flatMap Call.records))

/-- Each sync of a writer whose file is closed in the end returns an offset behind the header, at
which the file divides. -/
theorem reads_between_syncs [Deflate.Conforming] (hname : schema.name ≠ [])
    (hfields : ∀ f ∈ schema.fields, f.name ≠ []) {t : FileTree} {path codecName : Bytes}
    {interval : Nat} {w₀ w : Writer}
    (hcreate : create t path schema codecName interval marker = .ok w₀)
    (calls : List (Call schema)) (hcalls : calls.length < 2 ^ 63)
    (hclose : close (calls.foldl (fun w call => call.perform w) w₀) = .ok () w)
    (hlength : w.file.length < 2 ^ 63) :
    (∀ i, calls[i]? = some .sync → ∃ s, SyncReturns w₀ calls i s) ∧
    ∀ i s, SyncReturns w₀ calls i s → (headerFor schema w₀.codec marker).toBytes.length ≤ s ∧
      ReadsAround w₀ w.file (batches (max interval 1) [] calls) calls i s := by
  have hcreated := created_of_create hcreate
  have hroom := room_of_close hcreated calls hclose
  have hfile := file_of_close hcreate hclose
  have hsound := sound_of_close hcreate hcalls hclose
  have hreturns (k : Nat) := sync_of_created hcreated hroom (calls.take k)
  have hencoded : ∀ batch ∈ batches (max interval 1) [] calls,
      (∀ e ∈ batch, e.bytes.length < 2 ^ 63) → Entry.Encoded schema batch :=
    fun batch hbatch => Entry.encoded_of_calls hcalls hbatch
  generalize max interval 1 = bound at hfile hsound hreturns hencoded ⊢
  refine ⟨fun i hi => ⟨_, hi, hreturns i⟩, fun i s ⟨hi, hs⟩ => ?_⟩
  obtain rfl := Option.some.inj ((hreturns i).symm.trans hs)
  have hcut : batches bound [] calls =
      batches bound [] (calls.take i) ++ batches bound [] (calls.drop i) := batches_take_drop hi
  have hfirst : batches bound [] calls =
      [] ++ batches bound [] (calls.take i) ++ batches bound [] (calls.drop i) := hcut
  have hwhole : batches bound [] calls =
      batches bound [] (calls.take i) ++ batches bound [] (calls.drop i) ++ [] := by
    rw [List.append_nil]
    exact hcut
  have hsums := length_assembly_append schema w₀.codec marker (batches bound [] (calls.take i))
  have hends := hsums (batches bound [] (calls.drop i))
  have hinner {j : Nat} (hij : i ≤ j) : batches bound [] (calls.take j) =
      batches bound [] (calls.take i) ++ batches bound [] ((calls.take j).drop i) :=
    batches_take_of_le hij hi
  rw [← hcut] at hends
  refine ⟨?_, ?_, fun j s' hij ⟨hj, hs'⟩ => ?_, fun hfits => ?_, fun hfits => ?_,
    fun hfits j s' hij ⟨hj, hs'⟩ => ?_, fun hlong hlengths => ?_⟩
  · rw [length_assembly]
    exact Nat.le_add_right _ _
  · rw [hfile]
    omega
  · obtain rfl := Option.some.inj ((hreturns j).symm.trans hs')
    have hinside := hsums (batches bound [] ((calls.take j).drop i))
    rw [← hinner hij] at hinside
    omega
  · rw [hfile, ← records_batches bound]
    exact readsRange_of_append hname hfields hfirst (hsound hfits hlength) (.inl ⟨rfl, rfl⟩)
  · rw [hfile, ← records_batches bound]
    have hreads := readsRange_of_append hname hfields hwhole (hsound hfits hlength) (.inr rfl)
    rwa [← hcut] at hreads
  · obtain rfl := Option.some.inj ((hreturns j).symm.trans hs')
    have hparts : batches bound [] calls = batches bound [] (calls.take i) ++
        batches bound [] ((calls.take j).drop i) ++ batches bound [] (calls.drop j) := by
      rw [← hinner hij]
      exact batches_take_drop hj
    have hreads := readsRange_of_append hname hfields hparts (hsound hfits hlength) (.inr rfl)
    rw [← hinner hij, records_batches] at hreads
    rwa [hfile]
  · have hall : ∀ batch ∈ batches bound [] calls, Entry.Encoded schema batch :=
      fun batch hbatch => hencoded batch hbatch fun e he =>
        hlengths e (List.mem_flatten_of_mem hbatch he)
    rw [hfile] at hlength
    -- A batch that is too long is before the offset, or the first of them is behind it.
    by_cases hbefore : ∀ batch ∈ batches bound [] (calls.take i), w₀.codec.Fits (Entry.data batch)
    · have hbehind : ∃ batch ∈ batches bound [] (calls.drop i),
          ¬w₀.codec.Fits (Entry.data batch) := by
        obtain ⟨batch, hbatch, hlong⟩ := hlong
        rw [hcut, List.mem_append] at hbatch
        exact ⟨batch, hbatch.resolve_left fun hin => hlong (hbefore batch hin), hlong⟩
      have hreads := readsPart_of_append hname hfields hcreated.codec_found hwhole hall hbefore
        hbehind hlength (.inr rfl)
      rw [← hcut, records_batches] at hreads
      rw [hfile]
      exact .inr hreads
    · have hlong : ∃ batch ∈ batches bound [] (calls.take i),
          ¬w₀.codec.Fits (Entry.data batch) := by simpa using hbefore
      have hreads := readsPart_of_append hname hfields hcreated.codec_found hfirst hall (by simp)
        hlong hlength (.inl ⟨rfl, rfl⟩)
      rw [hfile, ← records_batches bound]
      exact .inl hreads

end Service

/-- The sync in the middle divides the three records of a file. -/
theorem reads_between_birds : ∃ (w₀ w : Writer) (s : Nat) (r r' : ContainerReader Record),
    close (birdCalls.foldl (fun w call => call.perform w) w₀) = .ok () w ∧
    SyncReturns w₀ birdCalls 3 s ∧
    ContainerReader.create w.treeOf { birdSource with stop := UInt64.ofNat s } 4096 = .ok r ∧
    ContainerReader.Returns (ContainerReader.start w.treeOf r)
      [jay, LawfulRecord.toRecord owl] ∧
    ContainerReader.create w.treeOf { birdSource with
      start := UInt64.ofNat s, stop := UInt64.ofNat w.file.length } 4096 = .ok r' ∧
    ContainerReader.Returns (ContainerReader.start w.treeOf r') [LawfulRecord.toRecord owl] := by
  obtain ⟨w₀, w, hcreate, hcodec, hclose, hfile⟩ := close_birds
  have hfits : ∀ batch ∈ batches (max 20 1) [] birdCalls, w₀.codec.Fits (Entry.data batch) := by
    rw [hcodec]
    exact fun _ _ => trivial
  have hlength : w.file.length < 2 ^ 63 := by
    rw [hfile]
    decide +kernel
  obtain ⟨hsyncs, hreads⟩ := reads_between_syncs (by decide) (by decide) hcreate birdCalls
    (by decide) hclose hlength
  obtain ⟨s, hs⟩ := hsyncs 3 rfl
  obtain ⟨-, haround⟩ := hreads 3 s hs
  have hle := haround.le_length
  have hentry : w.treeOf.entry "birds" = .ok (.file 0 w.file) := rfl
  have hnat {n : Nat} (hn : n ≤ w.file.length) : (UInt64.ofNat n).toNat = n := by
    rw [UInt64.toNat_ofNat']
    omega
  have hscan : (0 : UInt64) < 4096 := by decide
  let head : Source := { birdSource with stop := UInt64.ofNat s }
  let tail : Source :=
    { birdSource with start := UInt64.ofNat s, stop := UInt64.ofNat w.file.length }
  obtain ⟨r, hrun, hreturns⟩ :=
    haround.before hfits (show w.treeOf.entry head.path = _ from hentry) rfl (hnat hle) rfl hscan
  obtain ⟨r', hrun', hreturns'⟩ :=
    haround.behind hfits (show w.treeOf.entry tail.path = _ from hentry) (hnat hle) (hnat (Nat.le_refl _)) rfl hscan
  exact ⟨w₀, w, s, r, r', hclose, hs, hrun, hreturns, hrun', hreturns'⟩

/-- Before the sync a record of 2 ^ 32 bytes was accepted, and a reader of the range before the
offset does not return it. -/
theorem start_fails_before_sync : ∃ (value : Bytes) (w₀ w : Writer) (s : Nat)
    (r : ContainerReader Record), value = List.replicate (2 ^ 32 - 5) 0 ∧
    create {} "birds" FixedRecord.schema "deflate" 20 .zero = .ok w₀ ∧
    close ((longCalls value).foldl (fun w call => call.perform w) w₀) = .ok () w ∧
    SyncReturns w₀ (longCalls value) 1 s ∧
    ContainerReader.create w.treeOf { birdSource with stop := UInt64.ofNat s } 4096 = .ok r ∧
    ∃ cause r', ContainerReader.start w.treeOf r = .error (.format cause) r' := by
  have hvalue : (List.replicate (2 ^ 32 - 5) (0 : UInt8)).length = 2 ^ 32 - 5 :=
    List.length_replicate
  refine ⟨List.replicate (2 ^ 32 - 5) 0, ?_⟩
  generalize List.replicate (2 ^ 32 - 5) (0 : UInt8) = value at hvalue ⊢
  obtain ⟨w₀, w, hcreate, hcodec, hclose, hfile⟩ := close_long hvalue
  obtain ⟨hbegins, hshort⟩ := longFile_prefix value
  have hlength := length_longFile hvalue
  have hcreated := created_of_create hcreate
  have hsync := sync_of_created hcreated (room_of_close hcreated _ hclose)
    ((longCalls value).take 1)
  rw [(batches_long hvalue).2, hcodec] at hsync
  let source : Source := { birdSource with stop := UInt64.ofNat (longFile value 1).length }
  have hentry : w.treeOf.entry source.path = .ok (.file 0 (longFile value 2)) := by
    rw [← hfile]
    rfl
  have hstop : source.stop.toNat = (longFile value 1).length := by
    change (UInt64.ofNat _).toNat = _
    rw [UInt64.toNat_ofNat']
    omega
  have hfirst : source.start.toNat ≤ source.stop.toNat := Nat.zero_le _
  have hend := ContainerReader.rangeEnd_of_le hfirst (by omega) hlength
  exact ⟨w₀, w, _, _, rfl, hcreate, hclose, ⟨rfl, hsync⟩,
    ContainerReader.create_of_entry hentry 4096,
    start_fails_of_long hvalue hbegins hlength hentry rfl (by omega) rfl 4096⟩

end BlockContainer.Writer
