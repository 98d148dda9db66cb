import BlockContainer.Proofs.Container.Partition

/-! # Reading any bytes

Whatever the bytes of a file are, a reader of it fails only for reasons that lie in the bytes
or, while it is being started, in the configuration. The offsets that it reports to its
tracker go up within its range and within the file, so the tracker never finds it at fault,
and no block is read that is longer than what is left of the file.
-/
namespace BlockContainer

/-- The bytes of the file are to blame. -/
def Error.InBytes (e : Error) : Prop := ∃ cause, e = .format cause

/-- The bytes of the file or what the reader was asked for are to blame. -/
def Error.InBytesOrConfiguration (e : Error) : Prop :=
  e.InBytes ∨ ∃ cause, e = .configuration cause

namespace BlockReader

variable {content : Bytes} {t : FileTree} {r : BlockReader}

/-- The offset that the reader is going to report to its tracker, unless it is at the end of
the file. -/
def asks? (r : BlockReader) : Option UInt64 :=
  if r.fileSize ≤ r.nextBlockStart then none else some r.nextBlockStart

theorem asks_eq_some {offset : UInt64} :
    r.asks? = some offset ↔ r.nextBlockStart < r.fileSize ∧ r.nextBlockStart = offset := by
  unfold asks?
  by_cases hend : r.fileSize ≤ r.nextBlockStart
  · simp [hend, UInt64.not_lt.2 hend]
  · simp [hend, UInt64.not_le.1 hend]

/-- Asking for the next block is reporting its offset. -/
theorem approach_asks (hopen : r.isOpen = true) :
    approach r = match r.asks? with
      | none => .ok false { r with tracker := r.tracker.markDone }
      | some offset => focus tracker (fun r tracker => { r with tracker }) id
        (RangeTracker.tryReturn true offset) r := by
  unfold approach asks?
  rw [Runs.get_bind, Runs.ensure_bind hopen]
  split <;> rfl

/-- The reader has opened a file with this content. Unless it is at the end of the file, it
stands in its range and at an offset that can be reported. -/
structure Afloat (content : Bytes) (r : BlockReader) : Prop where
  isOpen : r.isOpen = true
  codec : r.codec?.isSome
  fileSize_eq : r.fileSize = UInt64.ofNat content.length
  order : ∀ offset ∈ r.tracker.last?, offset ≤ r.nextBlockStart
  stands : r.nextBlockStart < r.fileSize → r.tracker.start ≤ r.nextBlockStart ∧
    ∃ s, r.stream? = some s ∧ InputStream.At .file content r.nextBlockStart.toNat s

theorem Afloat.toNat_fileSize (h : Afloat content r) (hlength : content.length < 2 ^ 63) :
    r.fileSize.toNat = content.length := by
  rw [h.fileSize_eq, UInt64.toNat_ofNat']
  omega

structure Ashore (content : Bytes) (t : FileTree) (r : BlockReader) : Prop where
  entry : ∃ number, t.entry r.filename = .ok (.file number content)
  fileSize_eq : r.fileSize = UInt64.ofNat content.length
  stream_none : r.stream? = none
  header_none : r.header = {}
  last_none : r.tracker.last? = none

/-- Where the reader comes to stand when it looks for its first block. -/
theorem align_afloat {s : InputStream} (hlength : content.length < 2 ^ 63)
    (hscan : 0 < r.scanSize) (hstream : r.stream? = some s)
    (hat : InputStream.At .file content r.header.size s) (hheader : r.header.size ≤ content.length)
    (hcodec : r.codec?.isSome) (hsize : r.fileSize = UInt64.ofNat content.length)
    (hlast : r.tracker.last? = none) :
    ∃ r', align r = .ok () r' ∧ Afloat content r' ∧ r'.tracker = r.tracker := by
  have hnat : (UInt64.ofNat content.length).toNat = content.length := by
    rw [UInt64.toNat_ofNat']
    omega
  have horder (offset : UInt64) : ∀ last ∈ r.tracker.last?, last ≤ offset := by simp [hlast]
  by_cases hstart : r.tracker.start = 0
  · have hnext : (UInt64.ofNat r.header.size).toNat = r.header.size := by
      rw [UInt64.toNat_ofNat']
      omega
    have hseek := (InputStream.Near.of_at hat).at_clear.seek_file (n := r.header.size) (by omega)
    refine ⟨_, align_from_start hstream hstart, ⟨rfl, hcodec, hsize, horder _,
      fun _ => ⟨?_, _, rfl, ?_⟩⟩, rfl⟩
    · simp [hstart]
    · simp only [hnext]
      exact hseek
  · obtain ⟨next, stream, hlands, hstands, hwhere⟩ :=
      lands_behind_marker hlength hstream hat hstart
    refine ⟨_, hlands r.scanSize hscan, ⟨rfl, hcodec, hsize, horder _, fun hinside => ?_⟩, rfl⟩
    have hinside := UInt64.lt_iff_toNat_lt.1 hinside
    simp only [hsize, hnat] at hinside
    have hnext : r.tracker.start.toNat ≤ next.toNat := by
      -- A scan that ends inside the file has passed a whole marker.
      rcases hwhere with hleast | ⟨-, hend⟩
      · exact (SyncMarker.mem_endsFrom.1 hleast.1).1
      · omega
    exact ⟨UInt64.le_iff_toNat_le.2 hnext, stream, rfl, hstands (by omega)⟩

theorem ends_readHeader (hstream : r.stream? = some (.ofBytes .file content))
    (hheader : r.header = {}) :
    Runs.Ends Error.InBytesOrConfiguration (fun _ r' => ∃ s header,
      r' = { r with stream? := some s, header } ∧ InputStream.At .file content header.size s ∧
        header.size ≤ content.length) (readHeader r) := by
  have hstart : r.stream = .ofBytes .file content := by simp [stream, hstream]
  cases hread : Header.read { stream := r.stream, header := r.header } with
  | error e reading => exact .of_error (Runs.focus_of_error hread) (.inl ⟨e, rfl⟩)
  | ok u reading =>
    refine .of_ok (Runs.focus_of_ok hread) ⟨reading.stream, reading.header, rfl, ?_⟩
    rw [hstart, hheader] at hread
    obtain ⟨hat, -, hle, -⟩ := Header.at_of_read hread
    exact ⟨hat, hle⟩

theorem ends_chooseCodec :
    Runs.Ends Error.InBytesOrConfiguration (fun _ r' => ∃ codec, r' = { r with codec? := some codec })
      (chooseCodec r) := by
  rw [chooseCodec, Runs.get_bind]
  cases CodecRegistry.standard.create r.header.codec with
  | error e => exact .of_error rfl (.inr ⟨e, rfl⟩)
  | ok codec => exact .of_ok rfl ⟨codec, rfl⟩

/-- Opening the file fails only for the bytes of its header or for its codec. -/
theorem openFile_ashore (h : Ashore content t r) (hlength : content.length < 2 ^ 63)
    (hscan : 0 < r.scanSize) :
    Runs.Ends Error.InBytesOrConfiguration
      (fun _ r' => Afloat content r' ∧ r'.tracker = r.tracker) (openFile t r) := by
  obtain ⟨number, hentry⟩ := h.entry
  rw [openFile, Runs.bind_of_ok (takeUp_of_entry h.stream_none hentry)]
  refine Runs.Ends.bind (ends_readHeader rfl h.header_none) fun _ r₁ htaken => ?_
  obtain ⟨s, header, rfl, hat, hle⟩ := htaken
  refine ends_chooseCodec.bind fun _ r₂ hchosen => ?_
  obtain ⟨codec, rfl⟩ := hchosen
  obtain ⟨r', hrun, hafloat⟩ := align_afloat (r := { r with
    stream? := some s, file? := some number, header, codec? := some codec })
    hlength hscan rfl hat hle rfl h.fileSize_eq h.last_none
  exact .of_ok hrun hafloat

/-- What the reader is going to report lies in its range and in the file, and the tracker
finds no fault with it. -/
theorem Afloat.asks (h : Afloat content r) (hlength : content.length < 2 ^ 63) {offset : UInt64}
    (hasks : r.asks? = some offset) :
    r.tracker.start ≤ offset ∧ offset.toNat < content.length ∧
      ∃ granted tracker, RangeTracker.tryReturn true offset r.tracker = .ok granted tracker := by
  obtain ⟨hinside, rfl⟩ := asks_eq_some.1 hasks
  have hlt := UInt64.lt_iff_toNat_lt.1 hinside
  rw [h.toNat_fileSize hlength] at hlt
  refine ⟨(h.stands hinside).1, hlt, ?_⟩
  rw [RangeTracker.tryReturn_in_order true (fun _ => rfl) h.order]
  split
  · exact ⟨_, _, rfl⟩
  · exact ⟨_, _, rfl⟩

theorem Afloat.withTracker (h : Afloat content r) {tracker : RangeTracker}
    (hstart : tracker.start = r.tracker.start)
    (hlast : ∀ offset ∈ tracker.last?, offset ≤ r.nextBlockStart) :
    Afloat content { r with tracker } :=
  ⟨h.isOpen, h.codec, h.fileSize_eq, hlast, fun hinside => by
    rw [hstart]
    exact h.stands hinside⟩

/-- Asking for the next block does not fail while the reader is going to report no less than it
has reported. -/
theorem approach_in_order (hopen : r.isOpen = true) (horder : r.nextBlockStart < r.fileSize →
      ∀ offset ∈ r.tracker.last?, offset ≤ r.nextBlockStart) :
    ∃ granted tracker, approach r = .ok granted { r with tracker } ∧
      tracker.start = r.tracker.start ∧
      (tracker.last? = r.tracker.last? ∨ tracker.last? = some r.nextBlockStart) ∧
      (granted = true → r.nextBlockStart < r.fileSize) := by
  rw [approach_asks hopen]
  cases hasks : r.asks? with
  | none => exact ⟨false, _, rfl, rfl, .inl rfl, by simp⟩
  | some offset =>
    obtain ⟨hinside, rfl⟩ := asks_eq_some.1 hasks
    have hreport := RangeTracker.tryReturn_in_order true (fun _ => rfl) (horder hinside)
    simp only [focus, hreport]
    by_cases hstop : r.tracker.stop ≤ r.nextBlockStart
    · rw [if_pos ⟨trivial, hstop⟩]
      exact ⟨false, _, rfl, rfl, .inl rfl, by simp⟩
    · rw [if_neg fun hboth => hstop hboth.2]
      exact ⟨true, _, rfl, rfl, .inr rfl, fun _ => hinside⟩

/-- Asking for the next block never fails. -/
theorem Afloat.approach (h : Afloat content r) :
    ∃ granted r', approach r = .ok granted r' ∧ Afloat content r' ∧
      r' = { r with tracker := r'.tracker } ∧ r'.tracker.start = r.tracker.start ∧
      (granted = true → r.nextBlockStart < r.fileSize) := by
  obtain ⟨granted, tracker, hrun, hstart, hlast, hinside⟩ :=
    approach_in_order h.isOpen fun _ => h.order
  refine ⟨granted, _, hrun, h.withTracker hstart ?_, rfl, hstart, hinside⟩
  rcases hlast with hlast | hlast
  · rw [hlast]
    exact h.order
  · simp [hlast]

/-- The payload of a block is no longer than what is left of the file. -/
theorem Afloat.payload_le (h : Afloat content r) (hlength : content.length < 2 ^ 63)
    (hinside : r.nextBlockStart < r.fileSize) {framing : Block.Framing} {s : InputStream}
    (hread : Block.readFraming (r.fileSize - r.nextBlockStart).toNat r.stream = .ok framing s) :
    s.position + framing.length ≤ content.length := by
  obtain ⟨-, s₀, hstream, hat⟩ := h.stands hinside
  have hstart : r.stream = s₀ := by simp [stream, hstream]
  rw [hstart] at hread
  have hsub := UInt64.toNat_sub_of_le _ _ (UInt64.le_of_lt hinside)
  rw [h.toNat_fileSize hlength] at hsub
  have hlt := UInt64.lt_iff_toNat_lt.1 hinside
  rw [h.toNat_fileSize hlength] at hlt
  obtain ⟨count, length, n, -, -, -, -, -, hroom, hbehind⟩ := Block.behind_of_readFraming hat hread
  rw [hbehind.at_end.position_eq]
  omega

/-- Reading a block fails only for its bytes. -/
theorem failsWith_readBlock : Runs.FailsWith Error.InBytes readBlock r := by
  refine Runs.FailsWith.bind (Runs.failsWith_of_ok rfl) fun _ _ _ => ?_
  refine Runs.FailsWith.bind (Runs.failsWith_focus fun e => ⟨e, rfl⟩) fun _ _ _ => ?_
  refine Runs.FailsWith.bind (Runs.failsWith_of_ok rfl) fun _ _ _ => ?_
  refine Runs.FailsWith.bind (Runs.failsWith_focus fun e => ⟨e, rfl⟩) fun _ _ _ => ?_
  exact Runs.failsWith_of_ok rfl

/-- Reading the block that is there takes the reader on. -/
theorem Afloat.readBlock (h : Afloat content r) (hlength : content.length < 2 ^ 63)
    (hinside : r.nextBlockStart < r.fileSize) {b : Block} {r' : BlockReader}
    (hrun : readBlock r = .ok b r') :
    Afloat content r' ∧ r.nextBlockStart ≤ r'.nextBlockStart ∧ r'.tracker = r.tracker := by
  obtain ⟨hstart, s, hstream, hat⟩ := h.stands hinside
  obtain ⟨framing, bytes, t, s', hspelled, hdrop, rfl, hat'⟩ :=
    spelled_of_readBlock hstream hat hrun
  have hall := congrArg List.length hdrop
  rw [List.length_drop, List.length_append] at hall
  have hbytes := hspelled.length_eq
  have hnext : (r.nextBlockStart + UInt64.ofNat bytes.length).toNat =
      r.nextBlockStart.toNat + bytes.length := by
    rw [UInt64.toNat_add, UInt64.toNat_ofNat']
    omega
  have hle : r.nextBlockStart ≤ r.nextBlockStart + UInt64.ofNat bytes.length := by
    rw [UInt64.le_iff_toNat_le, hnext]
    omega
  refine ⟨⟨rfl, h.codec, h.fileSize_eq, fun offset hoffset => ?_, fun _ => ⟨?_, s', rfl, ?_⟩⟩,
    hle, rfl⟩
  · exact UInt64.le_trans (h.order offset hoffset) hle
  · exact UInt64.le_trans hstart hle
  · simp only [hnext]
    exact hat'

/-- Unpacking a block fails only for its bytes. -/
theorem Afloat.unpack (h : Afloat content r) (b : Block) :
    Runs.Ends Error.InBytes (fun _ r' => Afloat content r' ∧
      r'.nextBlockStart = r.nextBlockStart ∧ r'.tracker = r.tracker ∧ r'.decoder?.isSome)
      (unpack b r) := by
  obtain ⟨codec, hcodec⟩ := Option.isSome_iff_exists.1 h.codec
  rw [unpack_apply]
  simp only [hcodec]
  cases codec.decompress b.payload with
  | error e => exact .of_error rfl ⟨e, rfl⟩
  | ok data =>
    refine .of_ok rfl ⟨?_, rfl, rfl, rfl⟩
    exact ⟨h.isOpen, rfl, h.fileSize_eq, h.order, h.stands⟩

end BlockReader

namespace ContainerReader

variable {α : Type} {content : Bytes} {t : FileTree} {r : ContainerReader α} {last : Turn}

def asks? (last : Turn) (r : ContainerReader α) : Option UInt64 :=
  if last = .approached ∨ r.recordsLeft ≠ 0 then none else r.blocks.asks?

structure Afloat (content : Bytes) (last : Turn) (r : ContainerReader α) : Prop where
  started : r.started = true
  decoding : r.decoding?.isSome
  blocks : r.blocks.Afloat content
  decoder : r.recordsLeft ≠ 0 → r.blocks.decoder?.isSome
  granted : last = .approached → r.recordsLeft = 0 ∧ r.blocks.nextBlockStart < r.blocks.fileSize

/-- What a turn leaves behind: the reader moves on in the same range. -/
structure Onward (content : Bytes) (r : ContainerReader α) (next : Turn) (r' : ContainerReader α) :
    Prop where
  afloat : Afloat content next r'
  start_eq : r'.blocks.tracker.start = r.blocks.tracker.start
  le : r.blocks.nextBlockStart ≤ r'.blocks.nextBlockStart

theorem Afloat.decodeOne (h : Afloat content last r) (hleft : r.recordsLeft ≠ 0) :
    Runs.Ends Error.InBytes (fun _ => Onward content r .record) (decodeOne r) := by
  obtain ⟨decoding, hdecoding⟩ := Option.isSome_iff_exists.1 h.decoding
  obtain ⟨d, hd⟩ := Option.isSome_iff_exists.1 (h.decoder hleft)
  rw [decodeOne_apply hdecoding hd]
  cases decoding d with
  | error e d' => exact .of_error rfl ⟨e, rfl⟩
  | ok x d' =>
    refine .of_ok rfl ⟨⟨h.started, h.decoding, ?_, fun _ => rfl, by simp⟩, rfl, UInt64.le_refl _⟩
    exact ⟨h.blocks.isOpen, h.blocks.codec, h.blocks.fileSize_eq, h.blocks.order, h.blocks.stands⟩

/-- A turn that takes a block up, once it has been granted. -/
theorem Afloat.takeBlock (h : Afloat content .approached r) (hlength : content.length < 2 ^ 63) :
    Runs.Ends Error.InBytes (Onward content r) (takeBlock r) := by
  rw [takeBlock_apply]
  obtain ⟨hleft, hinside⟩ := h.granted rfl
  cases hread : r.blocks.readBlock with
  | error e blocks => exact .of_error rfl (BlockReader.failsWith_readBlock hread)
  | ok b blocks =>
    obtain ⟨hafloat, hle, htracker⟩ := h.blocks.readBlock hlength hinside hread
    by_cases hcount : b.recordCount = 0
    · simp only [hcount, if_true]
      refine .of_ok rfl ⟨?_, congrArg _ htracker, hle⟩
      exact ⟨h.started, h.decoding, hafloat, fun hne => absurd hleft hne, by simp⟩
    · simp only [hcount, if_false]
      have hends := hafloat.unpack b
      cases hunpack : BlockReader.unpack b blocks with
      | error e blocks' => exact .of_error rfl (hends.fails hunpack)
      | ok u blocks' =>
        obtain ⟨hafloat', hnext, htracker', hdecoder⟩ := hends.leads hunpack
        refine .of_ok rfl ⟨?_, congrArg _ (htracker'.trans htracker), ?_⟩
        · exact ⟨h.started, h.decoding, hafloat', fun _ => hdecoder, by simp⟩
        · simp only [hnext]
          exact hle

/-- A turn that decodes a record or asks for a block. -/
theorem Afloat.proceed (h : Afloat content last r) :
    Runs.Ends Error.InBytes (Onward content r) (proceed r) := by
  by_cases hleft : r.recordsLeft = 0
  · obtain ⟨granted, blocks, happroach, hafloat, hblocks, hstart, hinside⟩ := h.blocks.approach
    rw [proceed_idle hleft, happroach]
    have hnext : blocks.nextBlockStart = r.blocks.nextBlockStart := by rw [hblocks]
    have hsize : blocks.fileSize = r.blocks.fileSize := by rw [hblocks]
    have hle : r.blocks.nextBlockStart ≤ blocks.nextBlockStart := by
      rw [hnext]
      exact UInt64.le_refl _
    cases granted with
    | true =>
      refine .of_ok rfl ⟨⟨h.started, h.decoding, hafloat, fun hne => absurd hleft hne, fun _ => ?_⟩,
        hstart, hle⟩
      simp only [hnext, hsize]
      exact ⟨hleft, hinside rfl⟩
    | false =>
      refine .of_ok rfl ⟨?_, hstart, hle⟩
      exact ⟨h.started, h.decoding, hafloat, fun hne => absurd hleft hne, by simp⟩
  · rw [proceed_busy hleft]
    exact (h.decodeOne hleft).bind fun _ r' honward => .of_ok rfl honward

/-- A turn fails only for the bytes, and takes the reader on. -/
theorem Afloat.turn (h : Afloat content last r) (hlength : content.length < 2 ^ 63) :
    Runs.Ends Error.InBytes (Onward content r) (turn last r) := by
  rw [turn_apply h.started]
  by_cases hlast : last = .approached
  · rw [if_pos hlast]
    subst hlast
    exact h.takeBlock hlength
  · rw [if_neg hlast]
    exact h.proceed

theorem Afloat.turns (h : Afloat content last r) (hlength : content.length < 2 ^ 63) :
    ∀ e r', turns last r = .error e r' → e.InBytes := by
  intro e r' herror
  fun_induction ContainerReader.turns last r with
  | case1 last r e r₁ hturn =>
    cases herror
    exact (h.turn hlength).fails hturn
  | case2 => cases herror
  | case3 => cases herror
  | case4 last r r₁ hturn ih | case5 last r r₁ hturn ih =>
    exact ih ((h.turn hlength).leads hturn).afloat herror

theorem Afloat.advance (h : Afloat content last r) (hlength : content.length < 2 ^ 63)
    (hlast : last ≠ .approached) : Runs.FailsWith Error.InBytes advance r := by
  intro e r' herror
  rw [advance_eq_turns hlast r h.started] at herror
  exact h.turns hlength e r' herror

structure Ashore (content : Bytes) (t : FileTree) (start : UInt64) (r : ContainerReader α) :
    Prop where
  not_started : r.started = false
  blocks : r.blocks.Ashore content t
  scanSize_pos : 0 < r.blocks.scanSize
  start_eq : r.blocks.tracker.start = start
  count : r.recordsLeft = 0

/-- What any cut leaves true is left true by a split. -/
theorem trySplit_keeps {P : ContainerReader α → Prop} (hP : ∀ r cut, P r → P (r.cutAt cut))
    (fraction : UInt64) (h : P r) : P (trySplit fraction r).2 := by
  rcases trySplit_cases fraction r with hnone | ⟨cut, hcut, -⟩
  · rwa [hnone]
  · rw [hcut]
    exact hP r cut h

theorem trySplits_keeps {P : ContainerReader α → Prop} (hP : ∀ r cut, P r → P (r.cutAt cut))
    (fractions : List UInt64) (h : P r) : P (trySplits fractions r).2 := by
  induction fractions generalizing r with
  | nil => exact h
  | cons fraction rest ih => exact ih (trySplit_keeps hP fraction h)

theorem Ashore.cutAt {start : UInt64} (h : Ashore content t start r) (cut : UInt64) :
    Ashore content t start (r.cutAt cut) where
  not_started := h.not_started
  blocks := ⟨h.blocks.entry, h.blocks.fileSize_eq, h.blocks.stream_none, h.blocks.header_none,
    h.blocks.last_none⟩
  scanSize_pos := h.scanSize_pos
  start_eq := h.start_eq
  count := h.count

theorem Afloat.cutAt (h : Afloat content last r) (cut : UInt64) :
    Afloat content last (r.cutAt cut) where
  started := h.started
  decoding := h.decoding
  blocks := h.blocks.withTracker rfl h.blocks.order
  decoder := h.decoder
  granted := h.granted

variable [RecordType α]

theorem begin_ashore {start : UInt64} (h : Ashore content t start r)
    (hlength : content.length < 2 ^ 63) :
    Runs.Ends Error.InBytesOrConfiguration
      (fun _ r' => Afloat content .unfinished r' ∧ r'.blocks.tracker.start = start)
      (begin t r) := by
  have hends := BlockReader.openFile_ashore h.blocks hlength h.scanSize_pos
  rw [begin_apply h.not_started]
  cases hopen : BlockReader.openFile t r.blocks with
  | error e blocks => exact .of_error rfl (hends.fails hopen)
  | ok u blocks =>
    obtain ⟨hafloat, htracker⟩ := hends.leads hopen
    simp only
    cases RecordType.decoding (α := α) r.source.binding blocks.header with
    | error e => exact .of_error rfl (.inr ⟨e, rfl⟩)
    | ok decoding =>
      refine .of_ok rfl ⟨⟨rfl, rfl, hafloat, fun hne => absurd h.count hne, by simp⟩, ?_⟩
      exact (congrArg RangeTracker.start htracker).trans h.start_eq

theorem start_ashore {start : UInt64} (h : Ashore content t start r)
    (hlength : content.length < 2 ^ 63) :
    Runs.FailsWith Error.InBytesOrConfiguration (ContainerReader.start t) r := by
  have hends := begin_ashore h hlength
  rw [start_eq_begin]
  refine hends.fails.bind fun _ r' hbegin => ?_
  exact ((hends.leads hbegin).1.advance hlength (by decide)).imp fun e he => .inl he

omit [RecordType α] in
theorem create_ashore {source : Source} {number : Nat}
    (hentry : t.entry source.path = .ok (.file number content)) {scanSize : UInt64}
    (hscan : 0 < scanSize) :
    ∃ r : ContainerReader α, create t source scanSize = .ok r ∧
      Ashore content t source.start r := by
  exact ⟨_, create_of_entry hentry scanSize, rfl, ⟨⟨number, hentry⟩, rfl, rfl, rfl, rfl⟩,
    UInt64.lt_iff_toNat_lt.1 hscan, rfl, rfl⟩

/-- The reader has come from the start to this point by turns, with splits at any fractions
before it was started and between the turns. What it has reported to its tracker is listed
from the first offset to the last. -/
inductive Run (t : FileTree) (r₀ : ContainerReader α) :
    List UInt64 → Turn → ContainerReader α → Prop where
  | begun {r : ContainerReader α} (fractions : List UInt64)
      (begins : begin t (trySplits fractions r₀).2 = .ok () r) : Run t r₀ [] .unfinished r
  | split {reported : List UInt64} {last : Turn} {r : ContainerReader α} (fraction : UInt64)
      (before : Run t r₀ reported last r) : Run t r₀ reported last (trySplit fraction r).2
  | turned {reported : List UInt64} {last next : Turn} {r r' : ContainerReader α}
      (before : Run t r₀ reported last r) (turns : turn last r = .ok next r') :
      Run t r₀ (reported ++ (asks? last r).toList) next r'

/-- What a reader has reported, and what it is going to report, goes up within the range and
the file. -/
structure InOrder (content : Bytes) (start : UInt64) (reported : List UInt64) : Prop where
  ascending : reported.Pairwise (· ≤ ·)
  within : ∀ offset ∈ reported, start ≤ offset ∧ offset.toNat < content.length

structure Faultless (content : Bytes) (start : UInt64) (reported : List UInt64) (last : Turn)
    (r : ContainerReader α) : Prop where
  turn_fails : Runs.FailsWith Error.InBytes (turn last) r
  advance_fails : last ≠ .approached → Runs.FailsWith Error.InBytes advance r
  in_order : InOrder content start (reported ++ (asks? last r).toList)
  not_at_fault : ∀ offset ∈ asks? last r, ∃ granted tracker,
    RangeTracker.tryReturn true offset r.blocks.tracker = .ok granted tracker
  payload_le : last = .approached → ∀ framing s,
    Block.readFraming (r.blocks.fileSize - r.blocks.nextBlockStart).toNat r.blocks.stream =
      .ok framing s → s.position + framing.length ≤ content.length

/-- What a run preserves: the reader is afloat in its range, and all that it has reported lies
behind it. -/
structure Sailing (content : Bytes) (start : UInt64) (reported : List UInt64) (last : Turn)
    (r : ContainerReader α) : Prop where
  afloat : Afloat content last r
  start_eq : r.blocks.tracker.start = start
  in_order : InOrder content start reported
  behind : ∀ offset ∈ reported, offset ≤ r.blocks.nextBlockStart

variable {reported : List UInt64} {start : UInt64}

omit [RecordType α] in
theorem Sailing.in_order_asks (h : Sailing content start reported last r)
    (hlength : content.length < 2 ^ 63) :
    InOrder content start (reported ++ (asks? last r).toList) ∧
      ∀ offset ∈ reported ++ (asks? last r).toList, offset ≤ r.blocks.nextBlockStart := by
  unfold asks?
  split
  · rw [Option.toList_none, List.append_nil]
    exact ⟨h.in_order, h.behind⟩
  · cases hasks : r.blocks.asks? with
    | none =>
      rw [Option.toList_none, List.append_nil]
      exact ⟨h.in_order, h.behind⟩
    | some offset =>
      obtain ⟨hstart, hinside, -⟩ := h.afloat.blocks.asks hlength hasks
      obtain ⟨-, rfl⟩ := BlockReader.asks_eq_some.1 hasks
      rw [h.start_eq] at hstart
      refine ⟨⟨?_, fun offset hoffset => ?_⟩, fun offset hoffset => ?_⟩
      · refine List.pairwise_append.2 ⟨h.in_order.ascending, List.pairwise_singleton _ _, ?_⟩
        intro a ha b hb
        rw [List.mem_singleton.1 hb]
        exact h.behind a ha
      · rcases List.mem_append.1 hoffset with hold | hnew
        · exact h.in_order.within offset hold
        · rw [List.mem_singleton.1 hnew]
          exact ⟨hstart, hinside⟩
      · rcases List.mem_append.1 hoffset with hold | hnew
        · exact h.behind offset hold
        · rw [List.mem_singleton.1 hnew]
          exact UInt64.le_refl _

omit [RecordType α] in
theorem Sailing.turned (h : Sailing content start reported last r)
    (hlength : content.length < 2 ^ 63) {next : Turn} {r' : ContainerReader α}
    (hturn : ContainerReader.turn last r = .ok next r') :
    Sailing content start (reported ++ (asks? last r).toList) next r' := by
  obtain ⟨hin, hbehind⟩ := h.in_order_asks hlength
  have honward := (h.afloat.turn hlength).leads hturn
  exact ⟨honward.afloat, honward.start_eq.trans h.start_eq, hin,
    fun offset hoffset => UInt64.le_trans (hbehind offset hoffset) honward.le⟩

theorem sailing_of_run {r₀ : ContainerReader α} (h₀ : Ashore content t start r₀)
    (hlength : content.length < 2 ^ 63) (h : Run t r₀ reported last r) :
    Sailing content start reported last r := by
  induction h with
  | begun fractions hbegin =>
    have hsplit := trySplits_keeps (fun _ cut hr => hr.cutAt cut) fractions h₀
    obtain ⟨hafloat, hstart⟩ := (begin_ashore hsplit hlength).leads hbegin
    exact ⟨hafloat, hstart, ⟨.nil, by simp⟩, by simp⟩
  | split fraction _ ih =>
    exact trySplit_keeps (P := Sailing content start _ _)
      (fun _ cut hr => ⟨hr.afloat.cutAt cut, hr.start_eq, hr.in_order, hr.behind⟩) fraction ih
  | turned _ hturn ih => exact ih.turned hlength hturn

omit [RecordType α] in
theorem Sailing.faultless (h : Sailing content start reported last r)
    (hlength : content.length < 2 ^ 63) : Faultless content start reported last r where
  turn_fails := (h.afloat.turn hlength).fails
  advance_fails hlast := h.afloat.advance hlength hlast
  in_order := (h.in_order_asks hlength).1
  not_at_fault offset hoffset := by
    unfold asks? at hoffset
    split at hoffset
    · cases hoffset
    · exact (h.afloat.blocks.asks hlength hoffset).2.2
  payload_le hlast _ _ hread :=
    h.afloat.blocks.payload_le hlength (h.afloat.granted hlast).2 hread

/-- Whatever the bytes of a file are and however its reader is split, to start the reader
fails only for the bytes or the configuration, and from then on it fails only for the bytes
and gives its tracker no cause for complaint. -/
theorem faultless_of_any_bytes {source : Source} {number : Nat}
    (hentry : t.entry source.path = .ok (.file number content))
    (hlength : content.length < 2 ^ 63) {scanSize : UInt64} (hscan : 0 < scanSize) :
    ∃ r₀ : ContainerReader α, create t source scanSize = .ok r₀ ∧
      (∀ fractions, Runs.FailsWith Error.InBytesOrConfiguration (ContainerReader.start t)
        (trySplits fractions r₀).2) ∧
      ∀ reported last r, Run t r₀ reported last r →
        Faultless content source.start reported last r := by
  obtain ⟨r₀, hcreate, h₀⟩ := create_ashore (α := α) hentry hscan
  refine ⟨r₀, hcreate, fun fractions => ?_, fun reported last r hrun => ?_⟩
  · exact start_ashore (trySplits_keeps (fun _ cut hr => hr.cutAt cut) fractions h₀) hlength
  · exact (sailing_of_run h₀ hlength hrun).faultless hlength

def torn : Bytes := Plan.birds.content.dropLast ++ [0]

def tornTree : FileTree where
  entries := [(["torn"], .file 0 torn)]
  made := 1

def tornSource : Source := Plan.birdsSource.subrange "torn" 30 Source.unbounded

theorem faultless_of_torn :
    ∃ r₀ : ContainerReader Bird, create tornTree tornSource 4 = .ok r₀ ∧
      (∃ e r, ContainerReader.start tornTree r₀ = .error e r ∧ e.InBytesOrConfiguration) ∧
      ∀ reported last r, Run tornTree r₀ reported last r → Faultless torn 30 reported last r := by
  have hentry : tornTree.entry tornSource.path = .ok (.file 0 torn) := rfl
  have hscan : (0 : UInt64) < 4 := by decide
  obtain ⟨r₀, hcreate, hstart, hfaultless⟩ :=
    faultless_of_any_bytes (α := Bird) hentry (by decide +kernel) hscan
  have hfails : ((create (α := Bird) tornTree tornSource 4).toOption.map fun r =>
      match ContainerReader.start tornTree r with
      | .ok _ _ => false
      | .error _ _ => true) = some true := by decide +kernel
  refine ⟨r₀, hcreate, ?_, hfaultless⟩
  cases hrun : ContainerReader.start tornTree r₀ with
  | ok found r => simp [hcreate, Except.toOption, hrun] at hfails
  | error e r => exact ⟨e, r, rfl, hstart [] hrun⟩

end ContainerReader
end BlockContainer
