import BlockContainer.Block.Reader
import BlockContainer.Proofs.Marker.Scan

/-! # Opening a file

Opening reads the header and looks for the first block of the range. Whatever the bytes of the
file are, a range that starts with it is taken up behind the header, and any other behind the
first marker that ends at or after the start of the range, or behind all of the file.
-/
namespace BlockContainer.BlockReader

variable {t : FileTree} {r : BlockReader} {content : Bytes}

def unopened (filename : Bytes) (start stop : UInt64) (length scanSize : Nat) : BlockReader where
  filename
  scanSize
  fileSize := UInt64.ofNat length
  tracker := .ofRange start (max start (min stop (UInt64.ofNat length)))

theorem create_unopened {filename : Bytes} {number : Nat}
    (hentry : t.entry filename = .ok (.file number content)) (start stop : UInt64)
    (scanSize : Nat) : create t filename start stop scanSize =
      .ok (unopened filename start stop content.length scanSize) := by
  have hsize : t.fileSize filename = .ok content.length := by
    rw [FileTree.fileSize, hentry]
  rw [create, hsize]
  rfl

theorem onStream_of_ok {ε β : Type} (cause : ε → Error) {m : EStateM ε InputStream β}
    {s s' : InputStream} {b : β} (hstream : r.stream? = some s) (h : m s = .ok b s') :
    onStream cause m r = .ok b { r with stream? := some s' } := by
  have hrun : m r.stream = .ok b s' := by
    rw [stream, hstream]
    exact h
  rw [onStream, focus, hrun]

theorem seekNext_of_stream {s : InputStream} (hstream : r.stream? = some s) :
    (do
      let r ← get
      onStream id (modify fun s => s.clear.seek r.nextBlockStart.toNat) : Step Unit) r =
      .ok () { r with stream? := some (s.clear.seek r.nextBlockStart.toNat) } := by
  rw [Runs.get_bind]
  exact onStream_of_ok _ hstream (Runs.modify_apply _ _)

theorem takeUp_of_entry {number : Nat} (hstream : r.stream? = none)
    (hentry : t.entry r.filename = .ok (.file number content)) :
    takeUp t r = .ok () { r with
      stream? := some (.ofBytes .file content), file? := some number } := by
  have hopen : t.openPath r.filename = .ok (some number, content) := by
    rw [FileTree.openPath, hentry]
    rfl
  rw [takeUp, Runs.get_bind, hstream, hopen]
  rfl

theorem readHeader_of_taken {s : InputStream} {header : Header}
    (hstream : r.stream? = some (.ofBytes .file content)) (hheader : r.header = {})
    (hread : Header.read { stream := .ofBytes .file content, header := {} } =
      .ok () { stream := s, header }) :
    readHeader r = .ok () { r with stream? := some s, header } := by
  have hrun : Header.read { stream := r.stream, header := r.header } =
      .ok () { stream := s, header } := by
    rw [stream, hstream, hheader]
    exact hread
  rw [readHeader, focus, hrun]

theorem chooseCodec_of_found {codec : Codec}
    (hfound : CodecRegistry.standard.create r.header.codec = .ok codec) :
    chooseCodec r = .ok () { r with codec? := some codec } := by
  have hcodec : (CodecRegistry.standard.create r.header.codec).mapError Error.configuration =
      .ok codec := by
    rw [hfound]
    rfl
  rw [chooseCodec, Runs.get_bind, Runs.check_bind hcodec]
  rfl

/-- Opening a file with a sound header is looking for its first block. -/
theorem openFile_of_entry {number : Nat} {s : InputStream} {header : Header}
    {codec : Codec} (hentry : t.entry r.filename = .ok (.file number content))
    (hstream : r.stream? = none) (hheader : r.header = {})
    (hread : Header.read { stream := .ofBytes .file content, header := {} } =
      .ok () { stream := s, header })
    (hfound : CodecRegistry.standard.create header.codec = .ok codec) :
    openFile t r = align { r with
      stream? := some s, file? := some number, header, codec? := some codec } := by
  have hfilled := readHeader_of_taken (r := { r with
    stream? := some (.ofBytes .file content), file? := some number }) rfl hheader hread
  have hchosen := chooseCodec_of_found (r := { r with
    stream? := some s, file? := some number, header }) hfound
  rw [openFile, Runs.bind_of_ok (takeUp_of_entry hstream hentry), Runs.bind_of_ok hfilled,
    Runs.bind_of_ok hchosen]

/-- Opening a file whose header cannot be read fails as reading the header does. -/
theorem openFile_of_bad_header {number : Nat} {e : FormatError}
    {reading : HeaderReading} (hentry : t.entry r.filename = .ok (.file number content))
    (hstream : r.stream? = none) (hheader : r.header = {})
    (hread : Header.read { stream := .ofBytes .file content, header := {} } = .error e reading) :
    ∃ r', openFile t r = .error (.format e) r' := by
  have hrun : Header.read { stream := .ofBytes .file content, header := r.header } =
      .error e reading := by
    rw [hheader]
    exact hread
  have hfailed : ∃ r', readHeader { r with
      stream? := some (.ofBytes .file content), file? := some number } = .error (.format e) r' := by
    rw [readHeader, focus, stream]
    simp only [Option.getD_some, hrun]
    exact ⟨_, rfl⟩
  obtain ⟨r', hfailed⟩ := hfailed
  refine ⟨r', ?_⟩
  rw [openFile, Runs.bind_of_ok (takeUp_of_entry hstream hentry)]
  exact Runs.bind_of_error hfailed

/-- A file is not opened whose header asks for a codec that there is not. -/
theorem openFile_of_unknown_codec {number : Nat} {s : InputStream} {header : Header}
    {cause : ConfigurationError}
    (hentry : t.entry r.filename = .ok (.file number content)) (hstream : r.stream? = none)
    (hheader : r.header = {})
    (hread : Header.read { stream := .ofBytes .file content, header := {} } =
      .ok () { stream := s, header })
    (hcodec : CodecRegistry.standard.create header.codec = .error cause) :
    ∃ r', openFile t r = .error (.configuration cause) r' := by
  have hfilled := readHeader_of_taken (r := { r with
    stream? := some (.ofBytes .file content), file? := some number }) rfl hheader hread
  refine ⟨{ r with stream? := some s, file? := some number, header }, ?_⟩
  rw [openFile, Runs.bind_of_ok (takeUp_of_entry hstream hentry), Runs.bind_of_ok hfilled]
  apply Runs.bind_of_error
  rw [chooseCodec, Runs.get_bind, hcodec]
  rfl

/-- A range from the start of the file has its first block behind the header. -/
theorem align_from_start {s : InputStream} (hstream : r.stream? = some s)
    (hstart : r.tracker.start = 0) :
    align r = .ok () { r with
      nextBlockStart := UInt64.ofNat r.header.size
      stream? := some (s.clear.seek (UInt64.ofNat r.header.size).toNat) } := by
  rw [align, Runs.get_bind, if_pos hstart, Runs.modify_bind]
  exact seekNext_of_stream (r := { r with nextBlockStart := UInt64.ofNat r.header.size }) hstream

/-- Any other range has its first block where a scan from its origin ends. -/
theorem align_from_scan {s s' : InputStream} {passed : Nat} (hstream : r.stream? = some s)
    (hstart : r.tracker.start ≠ 0)
    (hscan : r.header.marker.advancePast r.scanSize (s.seek (scanOrigin r.tracker.start).toNat) =
      .ok passed s') :
    align r = .ok () { r with
      nextBlockStart := scanOrigin r.tracker.start + UInt64.ofNat passed
      stream? := some (s'.clear.seek
        (scanOrigin r.tracker.start + UInt64.ofNat passed).toNat) } := by
  have hpast := onStream_of_ok id
    (r := { r with stream? := some (s.seek (scanOrigin r.tracker.start).toNat) }) rfl hscan
  rw [align, Runs.get_bind, if_neg hstart,
    Runs.bind_of_ok (onStream_of_ok _ hstream (Runs.modify_apply _ _)), Runs.get_bind,
    Runs.bind_of_ok hpast, Runs.modify_bind]
  exact seekNext_of_stream (r := { r with
    nextBlockStart := scanOrigin r.tracker.start + UInt64.ofNat passed, stream? := some s' }) rfl

theorem toNat_scanOrigin (start : UInt64) : (scanOrigin start).toNat = start.toNat - 16 := by
  have h16 : (16 : UInt64).toNat = 16 := rfl
  rw [scanOrigin]
  split
  · next hlt =>
    rw [UInt64.toNat_sub_of_le _ _ (UInt64.le_of_lt hlt)]
    rfl
  · next hle =>
    rw [UInt64.lt_iff_toNat_lt] at hle
    change 0 = _
    omega

/-- Looking for the first block ends at this offset and leaves this stream, whatever the size of
the chunks. -/
def LandsAt (r : BlockReader) (next : UInt64) (stream : InputStream) : Prop :=
  ∀ scanSize, 0 < scanSize → align { r with scanSize } =
    .ok () { r with scanSize, nextBlockStart := next, stream? := some stream }

variable {s : InputStream} {offset : Nat}

/-- A scan from an offset that can be sought ends behind the first marker, or at the end. -/
theorem lands_of_near (hlength : content.length < 2 ^ 63) (hstream : r.stream? = some s)
    (hat : InputStream.At .file content offset s) (hstart : r.tracker.start ≠ 0)
    (hnear : (scanOrigin r.tracker.start).toNat < 2 ^ 63) :
    ∃ next stream, LandsAt r next stream ∧
      (next.toNat < 2 ^ 63 → InputStream.At .file content next.toNat stream) ∧
      ∃ e, next.toNat = (scanOrigin r.tracker.start).toNat + e ∧
        ScanEnd r.header.marker.bytes (content.drop (scanOrigin r.tracker.start).toNat) e := by
  have hsought := hat.seek_file hnear
  have hscan {chunkSize : Nat} (hchunk : 0 < chunkSize) :=
    r.header.marker.advancePast_cases hchunk (InputStream.seekable_file hsought hlength)
      (.of_at hsought)
  obtain ⟨e, -, -, -, hfound⟩ := hscan Nat.one_pos
  have hbound := hfound.le_length
  rw [List.length_drop] at hbound
  have hnext : (scanOrigin r.tracker.start + UInt64.ofNat e).toNat =
      (scanOrigin r.tracker.start).toNat + e := by
    rw [UInt64.toNat_add, UInt64.toNat_ofNat']
    omega
  refine ⟨scanOrigin r.tracker.start + UInt64.ofNat e, (InputStream.ofBytes .file content).seek
    ((scanOrigin r.tracker.start).toNat + e), fun scanSize hsize => ?_, fun hlt => ?_, e, hnext,
    hfound⟩
  · obtain ⟨e', s', hrun, hafter, hfound'⟩ := hscan hsize
    obtain rfl := hfound'.unique r.header.marker.bytes_ne_nil hfound
    have halign := align_from_scan (r := { r with scanSize }) hstream hstart hrun
    rw [hnext, hafter.at_clear.seek_eq (by omega)] at halign
    exact halign
  · rw [hnext] at hlt ⊢
    exact (InputStream.At.ofBytes .file content).seek_file hlt

/-- From an offset that cannot be sought the scan goes nowhere. -/
theorem lands_of_far (hstream : r.stream? = some s) (hat : InputStream.At .file content offset s)
    (hstart : r.tracker.start ≠ 0) (hfar : ¬(scanOrigin r.tracker.start).toNat < 2 ^ 63) :
    ∃ stream, LandsAt r (scanOrigin r.tracker.start) stream := by
  have hcan : s.canSeek (scanOrigin r.tracker.start).toNat = false := by
    simpa [InputStream.canSeek, hat.kind_eq] using hfar
  have hfailed : (s.seek (scanOrigin r.tracker.start).toNat).failed = true := by
    simp only [InputStream.seek, hat.not_failed, hcan, Bool.false_eq_true, if_false]
    rfl
  have hnext : scanOrigin r.tracker.start + UInt64.ofNat 0 = scanOrigin r.tracker.start :=
    UInt64.add_zero _
  let stopped := ((s.seek (scanOrigin r.tracker.start).toNat).move 0).fail
  refine ⟨stopped.clear.seek (scanOrigin r.tracker.start).toNat, fun scanSize hsize => ?_⟩
  have hrun := r.header.marker.advancePast_of_failed hsize hfailed
  have halign := align_from_scan (r := { r with scanSize }) hstream hstart hrun
  rwa [hnext] at halign

/-- A range that does not start with the file is taken up behind the first marker that ends in the
file at or after the start of the range, or, where there is none, behind all of the file. -/
theorem lands_behind_marker (hlength : content.length < 2 ^ 63) (hstream : r.stream? = some s)
    (hat : InputStream.At .file content offset s) (hstart : r.tracker.start ≠ 0) :
    ∃ next stream, LandsAt r next stream ∧
      (next.toNat < 2 ^ 63 → InputStream.At .file content next.toNat stream) ∧
      (IsLeast (r.header.marker.endsFrom content r.tracker.start.toNat) next.toNat ∨
        r.header.marker.endsFrom content r.tracker.start.toNat = ∅ ∧
          next.toNat = max content.length (r.tracker.start.toNat - 16)) := by
  have horigin := toNat_scanOrigin r.tracker.start
  by_cases hnear : (scanOrigin r.tracker.start).toNat < 2 ^ 63
  · obtain ⟨next, stream, hlands, hstands, e, hnext, hfound⟩ :=
      lands_of_near hlength hstream hat hstart hnear
    refine ⟨next, stream, hlands, hstands, ?_⟩
    rw [horigin] at hnext hfound
    rw [hnext]
    refine (SyncMarker.least_or_none hfound).imp_right fun ⟨hnone, hend⟩ => ⟨hnone, ?_⟩
    rw [List.length_drop] at hend
    omega
  · obtain ⟨stream, hlands⟩ := lands_of_far hstream hat hstart hnear
    refine ⟨_, stream, hlands, fun hlt => absurd hlt hnear, .inr ⟨?_, by omega⟩⟩
    apply Set.eq_empty_of_forall_notMem
    intro e he
    have := SyncMarker.mem_endsFrom.1 he
    omega

end BlockContainer.BlockReader
