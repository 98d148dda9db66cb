import BlockContainer.Proofs.Container.Partition

/-! # Where a range is taken up

Whatever the bytes behind the header are, a reader whose range does not start with the file
comes to stand behind the first marker that ends at or after the start of the range, also if
it is no block that the marker ends. Without such a marker, or with nothing behind it, the
range has no blocks. The size of the chunks that are scanned makes no difference.
-/
namespace BlockContainer.BlockReader

variable {t : FileTree} {r : BlockReader} {content : Bytes} {s : InputStream}

/-- The reader is about to ask its tracker for the block at the offset, and stands there. -/
structure Considers (content : Bytes) (e : Nat) (r : BlockReader) : Prop where
  next : r.nextBlockStart.toNat = e
  asks : approach r = focus tracker (fun r tracker => { r with tracker }) id
    (RangeTracker.tryReturn true r.nextBlockStart) r
  stands : ∃ s, r.stream? = some s ∧ InputStream.At .file content e s

def ended (r : BlockReader) : BlockReader := { r with tracker := { r.tracker with done := true } }

/-- The reader has no block, however often it is asked. Its tracker is done then and stays so, and
nothing else of the reader changes. -/
structure Blockless (r : BlockReader) : Prop where
  first : readNext r = .ok false r.ended
  again : readNext r.ended = .ok false r.ended
  done : ∀ n, ((Runs.after readNext)^[n + 1] r).tracker.done = true

theorem readNext_of_end (hopen : r.isOpen = true) (hend : r.fileSize ≤ r.nextBlockStart) :
    readNext r = .ok false r.ended := by
  have happroach : approach r = .ok false r.ended := by
    rw [approach, Runs.get_bind, Runs.ensure_bind hopen, if_pos hend]
    rfl
  rw [readNext]
  split <;> rename_i hrun <;> cases happroach.symm.trans hrun
  rfl

theorem blockless_of_runs (hfirst : readNext r = .ok false r.ended)
    (hagain : readNext r.ended = .ok false r.ended) : Blockless r := by
  refine ⟨hfirst, hagain, fun n => ?_⟩
  have hstays : (Runs.after readNext)^[n] r.ended = r.ended :=
    Function.iterate_fixed (Runs.after_of_ok hagain) n
  rw [Function.iterate_succ_apply, Runs.after_of_ok hfirst, hstays]
  rfl

theorem considers_of_inside (hlength : content.length < 2 ^ 63)
    (hsize : r.fileSize = UInt64.ofNat content.length) (hstream : r.stream? = some s)
    (hat : InputStream.At .file content r.nextBlockStart.toNat s)
    (hinside : r.nextBlockStart.toNat < content.length) :
    Considers content r.nextBlockStart.toNat r := by
  have hopen : r.isOpen = true := by simp [isOpen, hstream]
  have hbefore : ¬r.fileSize ≤ r.nextBlockStart := by
    rw [hsize, UInt64.le_iff_toNat_le, UInt64.toNat_ofNat']
    omega
  refine ⟨rfl, ?_, s, hstream, hat⟩
  rw [approach, Runs.get_bind, Runs.ensure_bind hopen, if_neg hbefore]

theorem blockless_of_behind (hlength : content.length < 2 ^ 63)
    (hsize : r.fileSize = UInt64.ofNat content.length) (hstream : r.stream? = some s)
    (hbehind : content.length ≤ r.nextBlockStart.toNat) : Blockless r := by
  have hopen : r.isOpen = true := by simp [isOpen, hstream]
  have hend : r.fileSize ≤ r.nextBlockStart := by
    rw [hsize, UInt64.le_iff_toNat_le, UInt64.toNat_ofNat']
    omega
  exact blockless_of_runs (readNext_of_end hopen hend) (readNext_of_end hopen hend)

/-- A reader whose range does not start with the file takes its blocks up behind the first marker
that ends in the file at or after the start of the range, if that leaves anything of the file, and
otherwise has no blocks. The readers that scan with other chunks are the same. A file whose header
asks for an unknown codec is not opened. -/
theorem opens_at_first_marker {filename : Bytes} {number : Nat}
    (hentry : t.entry filename = .ok (.file number content)) (hlength : content.length < 2 ^ 63)
    {header : Header} (hread : Header.read { stream := .ofBytes .file content, header := {} } =
      .ok () { stream := s, header })
    {start : UInt64} (hstart : 0 < start) (stop : UInt64) :
    (∀ cause, CodecRegistry.standard.create header.codec = .error cause →
      ∀ scanSize, ∃ r r', create t filename start stop scanSize = .ok r ∧
        openFile t r = .error (.configuration cause) r') ∧
    ∀ codec, CodecRegistry.standard.create header.codec = .ok codec →
      ∃ opened : BlockReader, opened.header = header ∧ opened.codec? = some codec ∧
        (∀ scanSize, 0 < scanSize → ∃ r, create t filename start stop scanSize = .ok r ∧
          openFile t r = .ok () { opened with scanSize }) ∧
        (∀ e, IsLeast (header.marker.endsFrom content start.toNat) e → e < content.length →
          Considers content e opened) ∧
        ((∀ e, IsLeast (header.marker.endsFrom content start.toNat) e → content.length ≤ e) →
          Blockless opened) := by
  have hcreate (scanSize : Nat) := create_unopened hentry start stop scanSize
  refine ⟨fun cause hcodec scanSize => ?_, fun codec hcodec => ?_⟩
  · obtain ⟨r', hrun⟩ := openFile_of_unknown_codec
      (r := unopened filename start stop content.length scanSize) hentry rfl rfl hread hcodec
    exact ⟨_, r', hcreate scanSize, hrun⟩
  · have hne : start ≠ 0 := fun h => by simp [h] at hstart
    have hat := (Header.at_of_read hread).1
    let headed : BlockReader := { unopened filename start stop content.length 1 with
      stream? := some s, file? := some number, header, codec? := some codec }
    have hopen (scanSize : Nat) := openFile_of_entry
      (r := unopened filename start stop content.length scanSize) hentry rfl rfl hread hcodec
    obtain ⟨next, stream, hlands, hstands, hwhere⟩ :=
      lands_behind_marker (r := headed) hlength rfl hat hne
    change IsLeast (header.marker.endsFrom content start.toNat) next.toNat ∨
      header.marker.endsFrom content start.toNat = ∅ ∧
        next.toNat = max content.length (start.toNat - 16) at hwhere
    let opened : BlockReader := { headed with nextBlockStart := next, stream? := some stream }
    refine ⟨opened, rfl, rfl, fun scanSize hscan => ⟨_, hcreate scanSize, ?_⟩,
      fun e he hinside => ?_, fun hnone => ?_⟩
    · exact (hopen scanSize).trans (hlands scanSize hscan)
    · rcases hwhere with hleast | ⟨hempty, -⟩
      · obtain rfl := hleast.unique he
        exact considers_of_inside (r := opened) hlength rfl rfl (hstands (by omega)) hinside
      · rw [hempty] at he
        exact absurd he.1 (Set.notMem_empty e)
    · refine blockless_of_behind (r := opened) hlength rfl rfl ?_
      rcases hwhere with hleast | ⟨-, hend⟩
      · exact hnone _ hleast
      · exact hend ▸ Nat.le_max_left _ _

/-- A range that starts inside the marker between the blocks has the second of them, one that
starts behind that marker has none. -/
theorem opens_birds :
    (∃ opened : BlockReader, (∀ scanSize, 0 < scanSize → ∃ r,
        create Plan.birdsTree "birds" 45 88 scanSize = .ok r ∧
          openFile Plan.birdsTree r = .ok () { opened with scanSize }) ∧
      Considers Plan.birds.content 60 opened) ∧
    ∃ opened : BlockReader, (∀ scanSize, 0 < scanSize → ∃ r,
        create Plan.birdsTree "birds" 61 88 scanSize = .ok r ∧
          openFile Plan.birdsTree r = .ok () { opened with scanSize }) ∧
      Blockless opened := by
  have hlength : Plan.birds.content.length = 88 := by decide +kernel
  have hentry : Plan.birdsTree.entry "birds" = .ok (.file 0 Plan.birds.content) := rfl
  have hlt : Plan.birds.content.length < 2 ^ 63 := by omega
  obtain ⟨s, hread⟩ := (Plan.birds.container Plan.birds_sound).header_read
  have hcodec : CodecRegistry.standard.create Plan.birds.header.codec = .ok .null := rfl
  have hsecond : IsLeast (SyncMarker.counting.endsFrom Plan.birds.content 45) 60 :=
    SyncMarker.isLeast_endsFrom (e := 31)
      ⟨by decide +kernel, by decide +kernel, by decide +kernel⟩
  have hlast : IsLeast (SyncMarker.counting.endsFrom Plan.birds.content 61) 88 :=
    SyncMarker.isLeast_endsFrom (e := 43)
      ⟨by decide +kernel, by decide +kernel, by decide +kernel⟩
  constructor
  · have hstart : (0 : UInt64) < 45 := by decide
    obtain ⟨opened, -, -, hopened, hconsiders, -⟩ :=
      (opens_at_first_marker hentry hlt hread hstart 88).2 .null hcodec
    exact ⟨opened, hopened, hconsiders 60 hsecond (by omega)⟩
  · have hstart : (0 : UInt64) < 61 := by decide
    obtain ⟨opened, -, -, hopened, -, hblockless⟩ :=
      (opens_at_first_marker hentry hlt hread hstart 88).2 .null hcodec
    exact ⟨opened, hopened, hblockless fun e he => by rw [he.unique hlast, hlength]⟩

end BlockContainer.BlockReader
