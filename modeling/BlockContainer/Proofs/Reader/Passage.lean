import BlockContainer.Proofs.Reader.InStep
import BlockContainer.Proofs.Record.Decoding

/-! # The way through a file

A reader that comes to the end of a file without a failure has gone through it block by block
from the header to the last byte, and decoded just as many records as each block declares. So the
file is a container, and its records are those that the reader has returned.
-/
namespace BlockContainer

variable {α : Type} {content : Bytes}

def ChainedTo (content : Bytes) (marker : SyncMarker) : Nat → List (PlacedBlock α) → Nat → Prop
  | offset, [], stop => offset = stop
  | offset, b :: rest, stop => b.offset = offset ∧
      (∃ s, Block.read (content.length - offset) marker
        ((InputStream.ofBytes .file content).seek offset) = .ok (b.block, b.size) s) ∧
      ChainedTo content marker b.stop rest stop

namespace ChainedTo

variable {marker : SyncMarker} {offset stop : Nat} {blocks : List (PlacedBlock α)}

theorem chained (h : ChainedTo content marker offset blocks content.length) :
    Chained content marker offset blocks := by
  induction blocks generalizing offset with
  | nil => exact h
  | cons b rest ih => exact ⟨h.1, h.2.1, ih h.2.2⟩

theorem snoc {b : PlacedBlock α} (h : ChainedTo content marker offset blocks b.offset)
    (hread : ∃ s, Block.read (content.length - b.offset) marker
      ((InputStream.ofBytes .file content).seek b.offset) = .ok (b.block, b.size) s) :
    ChainedTo content marker offset (blocks ++ [b]) b.stop := by
  induction blocks generalizing offset with
  | nil =>
    obtain rfl : offset = b.offset := h
    exact ⟨rfl, hread, rfl⟩
  | cons first rest ih => exact ⟨h.1, h.2.1, ih h.2.2⟩

/-- Blocks that start in the content end in it. -/
theorem le (h : ChainedTo content marker offset blocks stop) (hoffset : offset ≤ content.length)
    (hcontent : content.length < 2 ^ 63) : stop ≤ content.length := by
  induction blocks generalizing offset with
  | nil =>
    obtain rfl : offset = stop := h
    exact hoffset
  | cons b rest ih =>
    obtain ⟨hb, ⟨s, hread⟩, hrest⟩ := h
    have hat := (InputStream.At.ofBytes .file content).seek_file (n := offset) (by omega)
    obtain ⟨framing, bytes, t, -, hdrop, hsize, -⟩ := Block.spelled_of_read hat hread
    have hall := congrArg List.length hdrop
    rw [List.length_drop, List.length_append] at hall
    refine ih hrest ?_
    rw [PlacedBlock.stop, hb]
    omega

end ChainedTo

/-- Bytes that spell a block are read as the block where they stand, up to where they end. -/
theorem placed_of_spelled (hlength : content.length < 2 ^ 63) {marker : SyncMarker} {b : Block}
    {framing bytes rest : Bytes} {offset : UInt64} (hspelled : Block.Spelled marker b framing bytes)
    (hdrop : content.drop offset.toNat = bytes ++ rest) :
    (∃ s, Block.read (content.length - offset.toNat) marker
      ((InputStream.ofBytes .file content).seek offset.toNat) = .ok (b, bytes.length) s) ∧
      (offset + UInt64.ofNat bytes.length).toNat = offset.toNat + bytes.length := by
  have hbytes := hspelled.length_eq
  have hall := congrArg List.length hdrop
  rw [List.length_drop, List.length_append] at hall
  have hat := (InputStream.At.ofBytes .file content).seek_file (n := offset.toNat) (by omega)
  obtain ⟨s, hread, -⟩ :=
    Block.read_at hat hspelled hdrop (content.length - offset.toNat) (by omega)
  refine ⟨⟨s, hread⟩, ?_⟩
  rw [UInt64.toNat_add, UInt64.toNat_ofNat']
  omega

/-- What a reader goes by: the header of the content, the codec that it names, and a decoder. -/
structure Guide (α : Type) (content : Bytes) where
  header : Header
  codec : Codec
  decoding : Decoding α
  length_lt : content.length < 2 ^ 63
  header_read : ∃ s, Header.read { stream := .ofBytes .file content, header := {} } =
    .ok () { stream := s, header }
  codec_found : CodecRegistry.standard.create header.codec = .ok codec

namespace Guide

variable {g : Guide α content} {stop : Nat} {blocks : List (PlacedBlock α)}

structure Passed (g : Guide α content) (blocks : List (PlacedBlock α)) (stop : Nat) : Prop where
  chained : ChainedTo content g.header.marker g.header.size blocks stop
  holds : ∀ b ∈ blocks, b.Holds g.codec g.decoding

theorem Passed.snoc {b : PlacedBlock α} (h : g.Passed blocks b.offset)
    (hread : ∃ s, Block.read (content.length - b.offset) g.header.marker
      ((InputStream.ofBytes .file content).seek b.offset) = .ok (b.block, b.size) s)
    (hholds : b.Holds g.codec g.decoding) : g.Passed (blocks ++ [b]) b.stop where
  chained := h.chained.snoc hread
  holds b' hb' := by
    rcases List.mem_append.1 hb' with hb' | hb'
    · exact h.holds b' hb'
    · rwa [List.mem_singleton.1 hb']

theorem Passed.le (h : g.Passed blocks stop) : stop ≤ content.length := by
  obtain ⟨s, hread⟩ := g.header_read
  obtain ⟨-, -, hheader, -⟩ := Header.at_of_read hread
  exact h.chained.le hheader g.length_lt

def container (g : Guide α content) (h : g.Passed blocks content.length) : Container α where
  content := content
  header := g.header
  codec := g.codec
  decoding := g.decoding
  blocks := blocks
  length_lt := g.length_lt
  header_read := g.header_read
  codec_found := g.codec_found
  chained := h.chained.chained
  holds := h.holds

end Guide

namespace ContainerReader

variable {g : Guide α content} {r : ContainerReader α} {last : Turn} {records : List α}

structure Led (g : Guide α content) (r : ContainerReader α) : Prop where
  header : r.blocks.header = g.header
  codec : r.blocks.codec? = some g.codec
  decoding : r.decoding? = some g.decoding

structure Partway (g : Guide α content) (r : ContainerReader α) (b : PlacedBlock α) : Prop where
  read : ∃ s, Block.read (content.length - b.offset) g.header.marker
    ((InputStream.ofBytes .file content).seek b.offset) = .ok (b.block, b.size) s
  stop_eq : b.stop = r.blocks.nextBlockStart.toNat
  count : b.block.recordCount.toInt = b.records.length + r.recordsLeft
  decodes : ∃ data d, g.codec.decompress b.block.payload = .ok data ∧
    DecodesTo g.decoding (.ofBytes data) b.records d ∧ r.blocks.decoder? = some d

/-- The records are those of the blocks behind the reader. -/
inductive Logged (g : Guide α content) (r : ContainerReader α) : List α → Prop where
  | between {blocks : List (PlacedBlock α)} (count : r.recordsLeft = 0)
      (passed : g.Passed blocks r.blocks.nextBlockStart.toNat) :
      Logged g r (blocks.flatMap PlacedBlock.records)
  | within {blocks : List (PlacedBlock α)} {b : PlacedBlock α} (passed : g.Passed blocks b.offset)
      (present : Partway g r b) : Logged g r (blocks.flatMap PlacedBlock.records ++ b.records)

theorem Partway.holds {b : PlacedBlock α} (h : Partway g r b) (hleft : r.recordsLeft = 0) :
    b.Holds g.codec g.decoding := by
  obtain ⟨data, d, hdata, hdecodes, -⟩ := h.decodes
  have hcount := h.count
  rw [hleft] at hcount
  exact ⟨by simpa using hcount, .inr ⟨data, hdata, hdecodes.decodes⟩⟩

/-- Between two blocks all blocks behind the reader hold their records. -/
theorem Logged.passed (h : Logged g r records) (hleft : r.recordsLeft = 0) :
    ∃ blocks, g.Passed blocks r.blocks.nextBlockStart.toNat ∧
      records = blocks.flatMap PlacedBlock.records := by
  cases h with
  | between _ hpassed => exact ⟨_, hpassed, rfl⟩
  | @within blocks b hpassed hpresent =>
    refine ⟨blocks ++ [b], ?_, ?_⟩
    · rw [← hpresent.stop_eq]
      exact hpassed.snoc hpresent.read (hpresent.holds hleft)
    · rw [List.flatMap_append, List.flatMap_singleton]

variable [RecordType α]

/-- The reader is on its way through the whole of its file, and has come past these records. -/
structure Midway (g : Guide α content) (last : Turn) (r : ContainerReader α) (records : List α) :
    Prop where
  onCourse : OnCourse content 0 last r
  led : Led g r
  whole : r.blocks.tracker.stop = r.blocks.fileSize
  logged : Logged g r records

def Logs (g : Guide α content) (records : List α) :
    EStateM.Result Error (ContainerReader α) Turn → Prop
  | .ok .finished _ => ∃ blocks, g.Passed blocks content.length ∧
      records = blocks.flatMap PlacedBlock.records
  | .ok .record r => ∃ x, r.current? = some x ∧ Midway g .record r (records ++ [x])
  | .ok next r => Midway g next r records
  | .error _ _ => True

theorem Midway.decodeOne (h : Midway g last r records) (hleft : r.recordsLeft ≠ 0) :
    Logs g records ((ContainerReader.decodeOne >>= fun _ => pure .record : Step α Turn) r) := by
  have hcourse := h.onCourse.decodeOne hleft
  cases h.logged with
  | between hcount => exact absurd hcount hleft
  | @within blocks b hpassed hpresent =>
    obtain ⟨data, d, hdata, hdecodes, hd⟩ := hpresent.decodes
    have hrun := decodeOne_apply h.led.decoding hd
    cases hdecode : g.decoding d with
    | error e d' =>
      rw [hdecode] at hrun
      rw [Runs.bind_of_error hrun]
      trivial
    | ok x d' =>
      rw [hdecode] at hrun
      rw [Runs.bind_of_ok hrun] at hcourse ⊢
      refine ⟨x, rfl, hcourse.1, ⟨h.led.header, h.led.codec, h.led.decoding⟩, h.whole, ?_⟩
      rw [List.append_assoc]
      refine .within (b := { b with records := b.records ++ [x] }) hpassed ?_
      refine ⟨hpresent.read, hpresent.stop_eq, ?_, data, d', hdata, hdecodes.snoc hdecode, rfl⟩
      have hcount := hpresent.count
      simp only [List.length_append, List.length_singleton]
      omega

/-- Where no block is granted the whole file has been passed. -/
theorem Midway.proceed (h : Midway g last r records) :
    Logs g records (ContainerReader.proceed r) := by
  by_cases hleft : r.recordsLeft = 0
  · have hcourse := h.onCourse.proceed
    obtain ⟨blocks, hpassed, hrecords⟩ := h.logged.passed hleft
    obtain ⟨granted, b, happroach, -⟩ := h.onCourse.afloat.blocks.approach
    obtain ⟨hb, hstart, hstop, hgranted⟩ := BlockReader.approach_cases happroach
    have hnext : b.nextBlockStart = r.blocks.nextBlockStart := by rw [hb]
    have hsize : b.fileSize = r.blocks.fileSize := by rw [hb]
    have hrun := proceed_idle hleft
    rw [happroach] at hrun
    rw [← hnext] at hpassed
    cases granted with
    | true =>
      rw [hrun] at hcourse ⊢
      refine ⟨hcourse.1, ⟨?_, ?_, h.led.decoding⟩, ?_, ?_⟩
      · exact (congrArg BlockReader.header hb).trans h.led.header
      · exact (congrArg BlockReader.codec? hb).trans h.led.codec
      · exact hstop.trans (h.whole.trans hsize.symm)
      · rw [hrecords]
        exact .between hleft hpassed
    | false =>
      rw [hrun]
      have hend : r.blocks.fileSize ≤ r.blocks.nextBlockStart := by
        simpa [h.whole] using hgranted
      have htotal := h.onCourse.afloat.blocks.toNat_fileSize g.length_lt
      rw [UInt64.le_iff_toNat_le, htotal, ← hnext] at hend
      rw [Nat.le_antisymm hpassed.le hend] at hpassed
      exact ⟨blocks, hpassed, hrecords⟩
  · rw [proceed_busy hleft]
    exact h.decodeOne hleft

omit [RecordType α] in
/-- A granted block that is read stands where the reader stood, and the reader goes behind it. -/
theorem Afloat.placed (h : Afloat content .approached r) (hlength : content.length < 2 ^ 63)
    {block : Block} {b : BlockReader} (hread : r.blocks.readBlock = .ok block b) :
    ∃ size, (∃ s, Block.read (content.length - r.blocks.nextBlockStart.toNat) r.blocks.header.marker
        ((InputStream.ofBytes .file content).seek r.blocks.nextBlockStart.toNat) =
          .ok (block, size) s) ∧
      b.nextBlockStart.toNat = r.blocks.nextBlockStart.toNat + size ∧
      b = { r.blocks with
        stream? := b.stream?, recordCount := block.recordCount, blockStart := b.blockStart
        nextBlockStart := b.nextBlockStart } := by
  obtain ⟨-, s, hstream, hat⟩ := h.blocks.stands (h.granted rfl).2
  obtain ⟨framing, bytes, rest, s', hspelled, hdrop, rfl, -⟩ :=
    BlockReader.spelled_of_readBlock hstream hat hread
  obtain ⟨hplaced, hnext⟩ := placed_of_spelled hlength hspelled hdrop
  exact ⟨bytes.length, hplaced, hnext, rfl⟩

/-- Reading the block that was granted puts it into the log. -/
theorem Midway.takeBlock (h : Midway g .approached r records) :
    Logs g records (ContainerReader.takeBlock r) := by
  have hcourse := h.onCourse.takeBlock g.length_lt
  obtain ⟨hleft, -⟩ := h.onCourse.afloat.granted rfl
  obtain ⟨blocks, hpassed, rfl⟩ := h.logged.passed hleft
  have hrun := takeBlock_apply r
  cases hread : r.blocks.readBlock with
  | error e b =>
    rw [hread] at hrun
    rw [hrun]
    trivial
  | ok block b =>
    obtain ⟨size, hplaced, hnext, hb⟩ := h.onCourse.afloat.placed g.length_lt hread
    obtain ⟨hsign, hcount⟩ := BlockReader.recordCount_of_readBlock hread
    let placed : PlacedBlock α := ⟨r.blocks.nextBlockStart.toNat, size, block, []⟩
    have hstop : placed.stop = b.nextBlockStart.toNat := hnext.symm
    have hwhole : b.tracker.stop = b.fileSize := by rw [hb]; exact h.whole
    have hled : Led g { r with blocks := b } := by
      refine ⟨?_, ?_, h.led.decoding⟩
      · exact (congrArg BlockReader.header hb).trans h.led.header
      · exact (congrArg BlockReader.codec? hb).trans h.led.codec
    rw [h.led.header] at hplaced
    rw [hread] at hrun
    simp only at hrun
    by_cases hzero : block.recordCount = 0
    · rw [if_pos hzero] at hrun
      rw [hrun] at hcourse ⊢
      refine ⟨hcourse.1, hled, hwhole, ?_⟩
      have hholds : placed.Holds g.codec g.decoding := ⟨congrArg Int64.toInt hzero, .inl rfl⟩
      have hpassed := Guide.Passed.snoc (b := placed) hpassed hplaced hholds
      rw [hstop] at hpassed
      have hlog := Logged.between (r := { r with blocks := b }) hleft hpassed
      rwa [List.flatMap_append, List.flatMap_singleton, List.append_nil] at hlog
    · rw [if_neg hzero] at hrun
      cases hunpack : BlockReader.unpack block b with
      | error e b' =>
        rw [hunpack] at hrun
        rw [hrun]
        trivial
      | ok u b' =>
        obtain ⟨codec, data, hchosen, hdata, rfl⟩ := BlockReader.unpack_eq_ok_iff.1 hunpack
        cases hchosen.symm.trans hled.codec
        rw [hunpack] at hrun
        rw [hrun] at hcourse ⊢
        refine ⟨hcourse.1, ⟨hled.header, hled.codec, hled.decoding⟩, hwhole, ?_⟩
        rw [← List.append_nil (blocks.flatMap PlacedBlock.records)]
        refine .within (b := placed) hpassed ⟨hplaced, hstop, ?_, data, _, hdata, rfl, rfl⟩
        have hdeclared : 0 ≤ b.recordCount.toInt := hcount ▸ hsign
        change block.recordCount.toInt = (0 : Nat) + (b.recordCount.toInt.toNat : Int)
        rw [← hcount]
        omega

/-- Whatever the turn, the log is kept. -/
theorem Midway.turn (h : Midway g last r records) :
    Logs g records (ContainerReader.turn last r) := by
  rw [turn_apply h.onCourse.afloat.started]
  split
  · next hlast =>
    subst hlast
    exact h.takeBlock
  · exact h.proceed

def Moves (g : Guide α content) (records : List α) :
    EStateM.Result Error (ContainerReader α) Bool → Prop
  | .ok true r => ∃ x, r.current? = some x ∧ Midway g .record r (records ++ [x])
  | .ok false _ => ∃ blocks, g.Passed blocks content.length ∧
      records = blocks.flatMap PlacedBlock.records
  | .error _ _ => True

theorem Midway.turns (h : Midway g last r records) :
    Moves g records (ContainerReader.turns last r) := by
  have hlogs := h.turn
  fun_induction ContainerReader.turns last r with
  | case1 => trivial
  | case2 last r r' hturn => rwa [hturn] at hlogs
  | case3 last r r' hturn => rwa [hturn] at hlogs
  | case4 last r r' hturn ih | case5 last r r' hturn ih =>
    rw [hturn] at hlogs
    exact ih hlogs hlogs.turn

theorem Midway.advance (h : Midway g last r records) (hlast : last ≠ .approached) :
    Moves g records (ContainerReader.advance r) := by
  rw [advance_eq_turns hlast r h.onCourse.afloat.started]
  exact h.turns

/-- A reader of a whole file that has opened it is on its way, with nothing behind it. -/
theorem midway_of_begin {t : FileTree} (h : Ashore content t 0 r)
    (hlength : content.length < 2 ^ 63) (hwhole : r.blocks.tracker.stop = r.blocks.fileSize)
    {r' : ContainerReader α} (hbegin : begin t r = .ok () r') :
    ∃ g : Guide α content, Midway g .unfinished r' [] ∧
      RecordType.decoding r.source.binding g.header = .ok g.decoding := by
  obtain ⟨hcourse, hleft, htracker, hsource, hnext⟩ := onCourse_of_begin h hlength hbegin
  obtain ⟨codec, hcodec, hfound⟩ := hcourse.opened.codec
  obtain ⟨decoding, hdecoding, hdecides⟩ := hcourse.opened.decoding
  have hsize := hcourse.afloat.blocks.fileSize_eq.trans h.blocks.fileSize_eq.symm
  let g : Guide α content :=
    ⟨r'.blocks.header, codec, decoding, hlength, hcourse.opened.header_read, hfound⟩
  refine ⟨g, ⟨hcourse, ⟨rfl, hcodec, hdecoding⟩, ?_, ?_⟩, hsource ▸ hdecides⟩
  · rw [htracker, hwhole, hsize]
  · obtain ⟨s, hread⟩ := g.header_read
    obtain ⟨-, -, hheader, -⟩ := Header.at_of_read hread
    have hpassed : g.Passed [] r'.blocks.nextBlockStart.toNat := by
      refine ⟨?_, by simp⟩
      change r'.blocks.header.size ≤ content.length at hheader
      change r'.blocks.header.size = r'.blocks.nextBlockStart.toNat
      rw [hnext rfl, UInt64.toNat_ofNat']
      omega
    exact .between hleft hpassed

end ContainerReader
end BlockContainer
