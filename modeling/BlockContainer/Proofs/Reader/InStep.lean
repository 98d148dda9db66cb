import BlockContainer.Proofs.Reader.Calls
import Mathlib.Logic.Function.Iterate

/-! # Reading on after a failure

A reader whose call has failed can be asked for the next record all the same. It still knows the
offset of the next block, but the stream may have been moved. Where the bytes ran out the stream
has failed with them and finds no further block. Where the framing of a block or its marker was
wrong the stream stands behind what was read and the reader takes the bytes there for the block
it is looking for. On every voyage that ends with such a failure at the latest, the records are
those of blocks that stand in the file where the reader says, within its range.
-/
namespace BlockContainer

/-- A failure that leaves the stream behind bytes of a block that has not been read. -/
def Error.Strays : Error → Prop
  | .format .varintTooLong | .format (.blockFraming _ _ _) | .format (.blockTooLong _ _ _)
  | .format (.blockMarkerMismatch _ _ _) => True
  | _ => False

namespace InputStream

/-- A read that fails either strays or leaves the stream failed. -/
def SinksOrStrays {β : Type} (m : Reading β) : Prop :=
  ∀ ⦃s e s'⦄, m s = .error e s' → (Error.format e).Strays ∨ s'.failed = true

namespace SinksOrStrays

variable {β γ : Type}

theorem of_ok {m : Reading β} (h : ∀ s, ∃ b s', m s = .ok b s') : SinksOrStrays m := by
  intro s e s' herror
  obtain ⟨b, s'', hok⟩ := h s
  cases hok.symm.trans herror

theorem bind {m : Reading β} {f : β → Reading γ} (hm : SinksOrStrays m)
    (hf : ∀ b, SinksOrStrays (f b)) : SinksOrStrays (m >>= f) := by
  intro s e s' herror
  cases hrun : m s with
  | ok b s₁ => exact hf b ((Runs.bind_of_ok hrun).symm.trans herror)
  | error e₁ s₁ =>
    cases (Runs.bind_of_error hrun).symm.trans herror
    exact hm hrun

theorem ensure {c : Prop} [Decidable c] {e : FormatError} (h : (Error.format e).Strays) :
    SinksOrStrays (BlockContainer.ensure c e) := by
  unfold BlockContainer.ensure
  intro s e' s' herror
  split at herror <;> cases herror
  exact .inl h

theorem readLong : SinksOrStrays InputStream.readLong := by
  intro s e s' herror
  unfold InputStream.readLong at herror
  split at herror <;> cases herror
  · exact .inr rfl
  · exact .inl trivial

theorem readExactly (n : Nat) (otherwise : FormatError) :
    SinksOrStrays (InputStream.readExactly n otherwise) := by
  intro s e s' herror
  have hrun : InputStream.readExactly n otherwise s =
      if (s.read n).1.length = n then .ok (s.read n).1 (s.read n).2
      else .error otherwise (s.read n).2 := rfl
  rw [hrun] at herror
  by_cases hfull : (s.read n).1.length = n
  · rw [if_pos hfull] at herror
    cases herror
  · rw [if_neg hfull] at herror
    cases herror
    have hle : (s.read n).1.length ≤ n := List.length_take_le _ _
    have hless : (s.available.take n).length < n := Nat.lt_of_le_of_ne hle hfull
    simp only [InputStream.read, if_pos hless]
    exact .inr rfl

end SinksOrStrays
end InputStream

namespace Block

open InputStream

theorem sinksOrStrays_readFraming (remaining : Nat) : SinksOrStrays (readFraming remaining) := by
  unfold readFraming
  refine .bind (.of_ok fun s => ⟨_, _, rfl⟩) fun s => ?_
  refine .bind .readLong fun count => .bind .readLong fun length => ?_
  refine .bind (.ensure trivial) fun _ => .bind (.of_ok fun s => ⟨_, _, rfl⟩) fun s => ?_
  exact .bind (.ensure trivial) fun _ => .of_ok fun s => ⟨_, _, rfl⟩

theorem sinksOrStrays_readBody (marker : SyncMarker) (framing : Framing) :
    SinksOrStrays (readBody marker framing) := by
  unfold readBody
  refine .bind (.readExactly _ _) fun payload => .bind (.readExactly _ _) fun found => ?_
  exact .bind (.ensure trivial) fun _ => .of_ok fun s => ⟨_, _, rfl⟩

end Block

namespace BlockReader

variable {content : Bytes} {t : FileTree} {r : BlockReader}

def Sunk (r : BlockReader) : Prop := r.stream.failed = true

/-- Reading a block that cannot be read strays or sinks the reader. -/
theorem strays_or_sunk_of_readBlock {e : Error} {r' : BlockReader} (h : readBlock r = .error e r') :
    e.Strays ∨ Sunk r' := by
  have honStream {β : Type} {m : Reading β} (hm : InputStream.SinksOrStrays m) {r r' : BlockReader}
      (h : onStream Error.format m r = .error e r') : e.Strays ∨ Sunk r' := by
    cases hrun : m r.stream with
    | ok b s => cases (Runs.focus_of_ok hrun).symm.trans h
    | error cause s =>
      cases (Runs.focus_of_error hrun).symm.trans h
      exact hm hrun
  have hframing := Block.sinksOrStrays_readFraming (r.fileSize - r.nextBlockStart).toNat
  unfold readBlock at h
  rw [Runs.get_bind] at h
  cases hfirst : onStream .format (Block.readFraming _) r with
  | error e₁ r₁ =>
    cases (Runs.bind_of_error hfirst).symm.trans h
    exact honStream hframing hfirst
  | ok framing r₁ =>
    replace h := (Runs.bind_of_ok hfirst).symm.trans h
    rw [Runs.modify_bind] at h
    cases hsecond : onStream .format (Block.readBody r.header.marker framing) _ with
    | error e₂ r₂ =>
      cases (Runs.bind_of_error hsecond).symm.trans h
      exact honStream (Block.sinksOrStrays_readBody _ _) hsecond
    | ok payload r₂ => cases (Runs.bind_of_ok hsecond).symm.trans h

theorem Sunk.readBlock (h : Sunk r) (b : Block) (r' : BlockReader) : readBlock r ≠ .ok b r' := by
  intro hrun
  have hless := consumes_readBlock hrun
  have hnone : r.left = 0 := by
    change r.stream.available.length = 0
    rw [InputStream.available, if_pos (show r.stream.failed = true from h)]
    rfl
  omega

/-- What asking for a block comes to when it does not fail: the reader moves nothing but its
tracker. A granted block starts before the stop offset, and its offset has been reported. Without
one the reader is at the end of the file or of its range. -/
theorem approach_cases {granted : Bool} {r' : BlockReader} (h : approach r = .ok granted r') :
    r' = { r with tracker := r'.tracker } ∧ r'.tracker.start = r.tracker.start ∧
      r'.tracker.stop = r.tracker.stop ∧
      if granted then r'.tracker.last? = some r.nextBlockStart ∧ r.nextBlockStart < r.tracker.stop
      else r.fileSize ≤ r.nextBlockStart ∨ r.tracker.stop ≤ r.nextBlockStart := by
  unfold approach at h
  obtain ⟨_, _, hget, h⟩ := bind_eq_ok_iff.1 h
  cases hget
  obtain ⟨_, _, hopen, h⟩ := bind_eq_ok_iff.1 h
  obtain ⟨_, rfl⟩ := ensure_eq_ok_iff.1 hopen
  split at h
  · next hend =>
    cases h
    exact ⟨rfl, rfl, rfl, .inl hend⟩
  · obtain ⟨tracker, htracker, rfl⟩ := focus_eq_ok_iff.1 h
    rcases RangeTracker.tryReturn_cases true r.nextBlockStart r.tracker with
      ⟨cause, hrun⟩ | ⟨hrun, -, hstop⟩ | ⟨hrun, hstop, -⟩ <;> cases hrun.symm.trans htracker
    · exact ⟨rfl, rfl, rfl, .inr hstop⟩
    · exact ⟨rfl, rfl, rfl, rfl, hstop rfl⟩

/-- Opening a file is reading its header and finding the codec that it names. A range from the
start of the file has its first block behind the header. -/
theorem header_of_openFile {number : Nat} {r' : BlockReader}
    (hentry : t.entry r.filename = .ok (.file number content)) (hstream : r.stream? = none)
    (hheader : r.header = {}) (h : openFile t r = .ok () r') :
    (∃ s, Header.read { stream := .ofBytes .file content, header := {} } =
      .ok () { stream := s, header := r'.header }) ∧
      (∃ codec, r'.codec? = some codec ∧
        CodecRegistry.standard.create r'.header.codec = .ok codec) ∧
      (r.tracker.start = 0 → r'.nextBlockStart = UInt64.ofNat r'.header.size) := by
  rw [openFile, Runs.bind_of_ok (takeUp_of_entry hstream hentry)] at h
  obtain ⟨_, r₁, hread, h⟩ := bind_eq_ok_iff.1 h
  obtain ⟨reading, hreading, rfl⟩ := focus_eq_ok_iff.1 hread
  obtain ⟨_, r₂, hchoose, halign⟩ := bind_eq_ok_iff.1 h
  have hkeeps (codec : Codec) : Runs.Keeps (fun b => b.header = reading.header ∧
      b.codec? = some codec) align := keeps_align (fun _ _ h => h) fun _ _ h => h
  unfold chooseCodec at hchoose
  rw [Runs.get_bind] at hchoose
  cases hfound : CodecRegistry.standard.create reading.header.codec with
  | error e =>
    simp only [hfound] at hchoose
    cases hchoose
  | ok codec =>
    simp only [hfound] at hchoose
    cases hchoose
    obtain ⟨hsame, hcodec⟩ := (hkeeps codec).of_ok ⟨rfl, rfl⟩ halign
    rw [hheader] at hreading
    rw [hsame]
    refine ⟨⟨_, hreading⟩, ⟨codec, hcodec, hfound⟩, fun hstart => ?_⟩
    rw [align_from_start (s := reading.stream) rfl (by exact hstart)] at halign
    cases halign
    rfl

theorem eq_of_unpack_error {b : Block} {e : Error} {r' : BlockReader}
    (h : unpack b r = .error e r') : r' = r := by
  rw [unpack_apply] at h
  split at h
  · cases h
    rfl
  · split at h <;> cases h
    rfl

theorem Afloat.withDecoder (h : Afloat content r) (decoder? : Option Decoder) :
    Afloat content { r with decoder? } :=
  ⟨h.isOpen, h.codec, h.fileSize_eq, h.order, h.stands⟩

/-- The present block of the reader: it stands in the content where the reader says, and this
offset lies in the range. -/
structure AtBlock (content : Bytes) (start : UInt64) (r : BlockReader) (b : Block)
    (data : Bytes) : Prop where
  spelled : ∃ framing bytes rest, Block.Spelled r.header.marker b framing bytes ∧
    content.drop r.blockStart.toNat = bytes ++ rest
  unpacked : ∃ codec, r.codec? = some codec ∧ codec.decompress b.payload = .ok data
  start_le : start ≤ r.blockStart
  lt_stop : r.blockStart < r.tracker.stop
  reported : r.tracker.last? = some r.blockStart

theorem AtBlock.withDecoder {start : UInt64} {b : Block} {data : Bytes}
    (h : AtBlock content start r b data) (decoder? : Option Decoder) :
    AtBlock content start { r with decoder? } b data :=
  ⟨h.spelled, h.unpacked, h.start_le, h.lt_stop, h.reported⟩

/-- The present block can be read again where it stands. -/
theorem AtBlock.read {start : UInt64} {b : Block} {data : Bytes}
    (h : AtBlock content start r b data) (hlength : content.length < 2 ^ 63) :
    ∃ n s, Block.read content.length r.header.marker
      ((InputStream.ofBytes .file content).seek r.blockStart.toNat) = .ok (b, n) s := by
  obtain ⟨framing, bytes, rest, hspelled, hdrop⟩ := h.spelled
  have hbytes := hspelled.length_eq
  have hall := congrArg List.length hdrop
  rw [List.length_drop, List.length_append] at hall
  have hat := (InputStream.At.ofBytes .file content).seek_file (n := r.blockStart.toNat) (by omega)
  obtain ⟨s, hread, -⟩ := Block.read_at hat hspelled hdrop content.length (by omega)
  exact ⟨_, s, hread⟩

end BlockReader

namespace ContainerReader

variable {α : Type} {content : Bytes} {start : UInt64} {last : Turn} {r : ContainerReader α}

def InBlock (content : Bytes) (start : UInt64) (r : ContainerReader α) : Prop :=
  ∃ b data decoding attempts, r.blocks.AtBlock content start b data ∧ r.decoding? = some decoding ∧
    r.blocks.decoder? = some ((Runs.after decoding)^[attempts] (.ofBytes data))

structure Opened [RecordType α] (content : Bytes) (r : ContainerReader α) : Prop where
  header_read : ∃ s, Header.read { stream := .ofBytes .file content, header := {} } =
    .ok () { stream := s, header := r.blocks.header }
  codec : ∃ codec, r.blocks.codec? = some codec ∧
    CodecRegistry.standard.create r.blocks.header.codec = .ok codec
  decoding : ∃ decoding, r.decoding? = some decoding ∧
    RecordType.decoding r.source.binding r.blocks.header = .ok decoding

/-- The record of the reader has been decoded from the present block. -/
structure Genuine [RecordType α] (content : Bytes) (start : UInt64) (r : ContainerReader α) :
    Prop where
  opened : Opened content r
  decoded : ∃ b data decoding attempts x d, r.blocks.AtBlock content start b data ∧
    r.decoding? = some decoding ∧
    decoding ((Runs.after decoding)^[attempts] (.ofBytes data)) = .ok x d ∧ r.current? = some x

variable [RecordType α]

theorem Opened.moved (h : Opened content r) {b : BlockReader} (hheader : b.header = r.blocks.header)
    (hcodec : b.codec? = r.blocks.codec?) (recordsLeft : Nat) (current? : Option α) :
    Opened content { r with blocks := b, recordsLeft, current? } where
  header_read := by
    simp only [hheader]
    exact h.header_read
  codec := by
    simp only [hheader, hcodec]
    exact h.codec
  decoding := by
    simp only [hheader]
    exact h.decoding

/-- The reader stands where it takes itself to stand. -/
structure OnCourse (content : Bytes) (start : UInt64) (last : Turn) (r : ContainerReader α) :
    Prop where
  afloat : Afloat content last r
  start_eq : r.blocks.tracker.start = start
  opened : Opened content r
  reported : last = .approached → r.blocks.tracker.last? = some r.blocks.nextBlockStart ∧
    r.blocks.nextBlockStart < r.blocks.tracker.stop
  inBlock : r.recordsLeft ≠ 0 → InBlock content start r

omit [RecordType α] in
structure Sunk (r : ContainerReader α) : Prop where
  started : r.started = true
  count : r.recordsLeft = 0
  blocks : r.blocks.Sunk

/-- The states of a reader that has not strayed. -/
inductive Course (content : Bytes) (start : UInt64) (last : Turn) (r : ContainerReader α) :
    Prop where
  | onCourse (onCourse : OnCourse content start last r)
  | sunk (sunk : Sunk r)

/-- What a turn leaves behind: a reader for which `P` holds or, if it fails without straying, one
that has not strayed. -/
def Leads (content : Bytes) (start : UInt64) (P : Turn → ContainerReader α → Prop) :
    EStateM.Result Error (ContainerReader α) Turn → Prop
  | .ok next r => P next r ∧ (next = .record → Genuine content start r)
  | .error e r => (e.Strays → r.recordsLeft ≠ 0) → Course content start .unfinished r

theorem Leads.imp {P P' : Turn → ContainerReader α → Prop}
    {result : EStateM.Result Error (ContainerReader α) Turn} (h : Leads content start P result)
    (himp : ∀ next r, P next r → P' next r) : Leads content start P' result := by
  cases result with
  | ok next r => exact ⟨himp next r h.1, h.2⟩
  | error e r => exact h

theorem OnCourse.decodeOne (h : OnCourse content start last r) (hleft : r.recordsLeft ≠ 0) :
    Leads content start (OnCourse content start)
      ((ContainerReader.decodeOne >>= fun _ => pure .record : Step α Turn) r) := by
  obtain ⟨b, data, decoding, attempts, hblock, hdecoding, hd⟩ := h.inBlock hleft
  have hrun := decodeOne_apply hdecoding hd
  have hattempt : Runs.after decoding ((Runs.after decoding)^[attempts] (.ofBytes data)) =
      (Runs.after decoding)^[attempts + 1] (.ofBytes data) :=
    (Function.iterate_succ_apply' _ _ _).symm
  cases hdecode : decoding ((Runs.after decoding)^[attempts] (.ofBytes data)) with
  | error e d =>
    rw [Runs.after_of_error hdecode] at hattempt
    rw [hdecode] at hrun
    rw [Runs.bind_of_error hrun]
    intro _
    have hopened := h.opened.moved (b := { r.blocks with decoder? := some d }) rfl rfl
      r.recordsLeft r.current?
    refine .onCourse ⟨?_, h.start_eq, hopened, by simp, fun _ => ?_⟩
    · exact ⟨h.afloat.started, h.afloat.decoding, h.afloat.blocks.withDecoder _, fun _ => rfl,
        by simp⟩
    · exact ⟨b, data, decoding, attempts + 1, hblock.withDecoder _, hdecoding,
        congrArg some hattempt⟩
  | ok x d =>
    rw [Runs.after_of_ok hdecode] at hattempt
    rw [hdecode] at hrun
    rw [Runs.bind_of_ok hrun]
    have honward := (h.afloat.decodeOne hleft).leads hrun
    have hopened := h.opened.moved (b := { r.blocks with decoder? := some d }) rfl rfl
      (r.recordsLeft - 1) (some x)
    refine ⟨⟨honward.afloat, h.start_eq, hopened, by simp, fun _ => ?_⟩, fun _ => ?_⟩
    · exact ⟨b, data, decoding, attempts + 1, hblock.withDecoder _, hdecoding,
        congrArg some hattempt⟩
    · exact ⟨hopened, b, data, decoding, attempts, x, d, hblock.withDecoder _, hdecoding, hdecode,
        rfl⟩

/-- A turn that decodes a record or asks for a block. -/
theorem OnCourse.proceed (h : OnCourse content start last r) :
    Leads content start (OnCourse content start) (ContainerReader.proceed r) := by
  by_cases hleft : r.recordsLeft = 0
  · obtain ⟨granted, blocks, happroach, -⟩ := h.afloat.blocks.approach
    obtain ⟨hblocks, hstart, hstop, hgranted⟩ := BlockReader.approach_cases happroach
    have hrun := proceed_idle hleft
    rw [happroach] at hrun
    have hheader : blocks.header = r.blocks.header := by rw [hblocks]
    have hcodec : blocks.codec? = r.blocks.codec? := by rw [hblocks]
    have hnext : blocks.nextBlockStart = r.blocks.nextBlockStart := by rw [hblocks]
    have hstart : blocks.tracker.start = start := hstart.trans h.start_eq
    cases granted with
    | true =>
      have honward := h.afloat.proceed.leads hrun
      rw [hrun]
      refine ⟨⟨honward.afloat, hstart, h.opened.moved hheader hcodec _ _, fun _ => ?_,
        fun hne => absurd hleft hne⟩, by simp⟩
      rw [hnext, hstop]
      exact hgranted
    | false =>
      have honward := h.afloat.proceed.leads hrun
      rw [hrun]
      exact ⟨⟨honward.afloat, hstart, h.opened.moved hheader hcodec _ _, by simp,
        fun hne => absurd hleft hne⟩, by simp⟩
  · rw [proceed_busy hleft]
    exact h.decodeOne hleft

theorem OnCourse.takeBlock (h : OnCourse content start .approached r)
    (hlength : content.length < 2 ^ 63) :
    Leads content start (OnCourse content start) (ContainerReader.takeBlock r) := by
  obtain ⟨hleft, hinside⟩ := h.afloat.granted rfl
  obtain ⟨hlast, hstop⟩ := h.reported rfl
  have hrun := takeBlock_apply r
  cases hread : r.blocks.readBlock with
  | error e blocks =>
    rw [hread] at hrun
    rw [hrun]
    intro hstrays
    have hsunk :=
      (BlockReader.strays_or_sunk_of_readBlock hread).resolve_left fun hs => hstrays hs hleft
    exact .sunk ⟨h.afloat.started, hleft, hsunk⟩
  | ok b blocks =>
    obtain ⟨hafloat, -, -⟩ := h.afloat.blocks.readBlock hlength hinside hread
    obtain ⟨hstart, s, hstream, hat⟩ := h.afloat.blocks.stands hinside
    obtain ⟨framing, bytes, rest, s', hspelled, hdrop, hblocks, -⟩ :=
      BlockReader.spelled_of_readBlock hstream hat hread
    have hheader : blocks.header = r.blocks.header := by rw [hblocks]
    have hcodec : blocks.codec? = r.blocks.codec? := by rw [hblocks]
    have hsame : blocks.tracker = r.blocks.tracker := by rw [hblocks]
    have hbehind : OnCourse content start .unfinished { r with blocks } := by
      refine ⟨⟨h.afloat.started, h.afloat.decoding, hafloat, fun hne => absurd hleft hne, by simp⟩,
        ?_, h.opened.moved hheader hcodec _ _, by simp, fun hne => absurd hleft hne⟩
      exact (congrArg RangeTracker.start hsame).trans h.start_eq
    rw [hread] at hrun
    simp only at hrun
    by_cases hcount : b.recordCount = 0
    · rw [if_pos hcount] at hrun
      rw [hrun]
      exact ⟨hbehind, by simp⟩
    · rw [if_neg hcount] at hrun
      cases hunpack : BlockReader.unpack b blocks with
      | error e blocks' =>
        obtain rfl := BlockReader.eq_of_unpack_error hunpack
        rw [hunpack] at hrun
        rw [hrun]
        exact fun _ => .onCourse hbehind
      | ok u blocks' =>
        obtain ⟨codec, data, hchosen, hdata, rfl⟩ := BlockReader.unpack_eq_ok_iff.1 hunpack
        have hblock : blocks.AtBlock content start b data := by
          refine ⟨⟨framing, bytes, rest, ?_, ?_⟩, ⟨codec, hchosen, hdata⟩, ?_, ?_, ?_⟩
          · rwa [hheader]
          all_goals rw [hblocks]
          · exact hdrop
          · rwa [← h.start_eq]
          · exact hstop
          · exact hlast
        obtain ⟨decoding, hdecoding⟩ := Option.isSome_iff_exists.1 h.afloat.decoding
        have hopened := h.opened.moved (b := { blocks with decoder? := some (.ofBytes data) })
          hheader hcodec blocks.recordCount.toInt.toNat r.current?
        rw [hunpack] at hrun
        rw [hrun]
        refine ⟨⟨⟨h.afloat.started, h.afloat.decoding, hafloat.withDecoder _, fun _ => rfl,
          by simp⟩, hbehind.start_eq, hopened, by simp, fun _ => ?_⟩, by simp⟩
        exact ⟨b, data, decoding, 0, hblock.withDecoder _, hdecoding, rfl⟩

/-- A reader whose stream has failed finds nothing further. -/
theorem Sunk.turn (h : Sunk r) :
    Leads content start (Course content start) (ContainerReader.turn last r) := by
  rw [turn_apply h.started]
  split
  · have hrun := takeBlock_apply r
    cases hread : r.blocks.readBlock with
    | ok b blocks => exact absurd hread (h.blocks.readBlock b blocks)
    | error e blocks =>
      rw [hread] at hrun
      rw [hrun]
      intro hstrays
      have hsunk :=
        (BlockReader.strays_or_sunk_of_readBlock hread).resolve_left fun hs => hstrays hs h.count
      exact .sunk ⟨h.started, h.count, hsunk⟩
  · have hkeeps : Runs.Keeps BlockReader.Sunk BlockReader.approach :=
      BlockReader.keeps_approach fun _ _ hsunk => hsunk
    have hrun := proceed_idle h.count
    cases happroach : BlockReader.approach r.blocks with
    | error e blocks =>
      rw [happroach] at hrun
      rw [hrun]
      exact fun _ => .sunk ⟨h.started, h.count, hkeeps.of_error h.blocks happroach⟩
    | ok granted blocks =>
      have hsunk := hkeeps.of_ok h.blocks happroach
      rw [happroach] at hrun
      cases granted with
      | true =>
        rw [hrun]
        exact ⟨.sunk ⟨h.started, h.count, hsunk⟩, by simp⟩
      | false =>
        rw [hrun]
        exact ⟨.sunk ⟨h.started, h.count, hsunk⟩, by simp⟩

theorem OnCourse.turn (h : OnCourse content start last r) (hlength : content.length < 2 ^ 63) :
    Leads content start (OnCourse content start) (ContainerReader.turn last r) := by
  rw [turn_apply h.afloat.started]
  split
  · next hlast =>
    subst hlast
    exact h.takeBlock hlength
  · exact h.proceed

theorem Course.turn (h : Course content start last r) (hlength : content.length < 2 ^ 63) :
    Leads content start (Course content start) (ContainerReader.turn last r) := by
  cases h with
  | sunk h => exact h.turn
  | onCourse h => exact (h.turn hlength).imp fun _ _ => .onCourse

omit [RecordType α] in
theorem Sunk.cutAt (h : Sunk r) (cut : UInt64) : Sunk (r.cutAt cut) :=
  ⟨h.started, h.count, h.blocks⟩

/-- A cut leaves the present block in the range, and the block that has been granted. -/
theorem Course.trySplit (h : Course content start last r) (fraction : UInt64) :
    Course content start last (ContainerReader.trySplit fraction r).2 := by
  rcases trySplit_cases fraction r with hnone | ⟨cut, hcut, -, -, -, horder⟩
  · rwa [hnone]
  · rw [hcut]
    cases h with
    | sunk hsunk => exact .sunk (hsunk.cutAt cut)
    | onCourse hcourse =>
      refine .onCourse ⟨hcourse.afloat.cutAt cut, hcourse.start_eq, ?_, fun hlast => ?_,
        fun hne => ?_⟩
      · exact hcourse.opened.moved (b := (r.cutAt cut).blocks) rfl rfl _ _
      · obtain ⟨hreported, -⟩ := hcourse.reported hlast
        exact ⟨hreported, horder _ hreported⟩
      · obtain ⟨b, data, decoding, attempts, hblock, hdecoding, hd⟩ := hcourse.inBlock hne
        exact ⟨b, data, decoding, attempts, ⟨hblock.spelled, hblock.unpacked, hblock.start_le,
          horder _ hblock.reported, hblock.reported⟩, hdecoding, hd⟩

/-- The reader has come from the start to this point by turns, with splits at any fractions before
it was started and between the turns. A turn that failed was followed by others, unless it
strayed. -/
inductive Voyage (t : FileTree) (r₀ : ContainerReader α) : Turn → ContainerReader α → Prop where
  | begun {r : ContainerReader α} (fractions : List UInt64)
      (begins : begin t (trySplits fractions r₀).2 = .ok () r) : Voyage t r₀ .unfinished r
  | split {last : Turn} {r : ContainerReader α} (fraction : UInt64) (before : Voyage t r₀ last r) :
      Voyage t r₀ last (ContainerReader.trySplit fraction r).2
  | turned {last next : Turn} {r r' : ContainerReader α} (before : Voyage t r₀ last r)
      (turns : ContainerReader.turn last r = .ok next r') : Voyage t r₀ next r'
  | resumed {last : Turn} {e : Error} {r r' : ContainerReader α} (before : Voyage t r₀ last r)
      (fails : ContainerReader.turn last r = .error e r') (course : e.Strays → r'.recordsLeft ≠ 0) :
      Voyage t r₀ .unfinished r'

variable {t : FileTree} {r₀ : ContainerReader α}

/-- Moving on to a record is part of a voyage, and so is a failure to, unless it strayed. -/
theorem Voyage.advance (h : Voyage t r₀ last r) (hlast : last ≠ .approached)
    (hstarted : r.started = true) :
    match advance r with
    | .ok found r' => Voyage t r₀ (.ofFound found) r'
    | .error e r' => (e.Strays → r'.recordsLeft ≠ 0) → Voyage t r₀ .unfinished r' := by
  rw [advance_eq_turns hlast r hstarted]
  clear hlast hstarted
  fun_induction turns last r with
  | case1 last r e r' hturn => exact h.resumed hturn
  | case2 last r r' hturn => exact h.turned hturn
  | case3 last r r' hturn => exact h.turned hturn
  | case4 last r r' hturn ih => exact ih (h.turned hturn)
  | case5 last r r' hturn ih => exact ih (h.turned hturn)

theorem Course.turns (h : Course content start last r) (hlength : content.length < 2 ^ 63)
    {r' : ContainerReader α} (hrun : ContainerReader.turns last r = .ok true r') :
    Genuine content start r' := by
  fun_induction ContainerReader.turns last r with
  | case1 => cases hrun
  | case2 => cases hrun
  | case3 last r r₁ hturn =>
    cases hrun
    have hleads := h.turn hlength
    rw [hturn] at hleads
    exact hleads.2 rfl
  | case4 last r r₁ hturn ih | case5 last r r₁ hturn ih =>
    have hleads := h.turn hlength
    rw [hturn] at hleads
    exact ih hleads.1 hrun

theorem Course.started (h : Course content start last r) : r.started = true := by
  cases h with
  | onCourse h => exact h.afloat.started
  | sunk h => exact h.started

/-- What holds of a reader on a voyage: where it takes itself to stand at a block, its stream
stands or has failed, and each record that it comes to is genuine. -/
structure InStep (content : Bytes) (start : UInt64) (last : Turn) (r : ContainerReader α) :
    Prop where
  position : last = .approached → r.blocks.stream.failed = true ∨
    InputStream.At .file content r.blocks.nextBlockStart.toNat r.blocks.stream
  turned : ∀ r', ContainerReader.turn last r = .ok .record r' → Genuine content start r'
  advanced : last ≠ .approached → ∀ r', ContainerReader.advance r = .ok true r' →
    Genuine content start r'

theorem Course.inStep (h : Course content start last r) (hlength : content.length < 2 ^ 63) :
    InStep content start last r where
  position hlast := by
    cases h with
    | sunk h => exact .inl h.blocks
    | onCourse h =>
      obtain ⟨-, s, hstream, hat⟩ := h.afloat.blocks.stands (h.afloat.granted hlast).2
      refine .inr ?_
      rwa [BlockReader.stream, hstream]
  turned r' hturn := by
    have hleads := h.turn hlength
    rw [hturn] at hleads
    exact hleads.2 rfl
  advanced hlast r' hadvance := by
    rw [advance_eq_turns hlast r h.started] at hadvance
    exact h.turns hlength hadvance

/-- A reader that has opened its file is on course, and has not touched its range. -/
theorem onCourse_of_begin (h : Ashore content t start r) (hlength : content.length < 2 ^ 63)
    {r' : ContainerReader α} (hbegin : begin t r = .ok () r') :
    OnCourse content start .unfinished r' ∧ r'.recordsLeft = 0 ∧
      r'.blocks.tracker = r.blocks.tracker ∧ r'.source = r.source ∧
      (start = 0 → r'.blocks.nextBlockStart = UInt64.ofNat r'.blocks.header.size) := by
  obtain ⟨hafloat, hstart⟩ := (begin_ashore h hlength).leads hbegin
  obtain ⟨number, hentry⟩ := h.blocks.entry
  have hopens := BlockReader.openFile_ashore h.blocks hlength h.scanSize_pos
  have hrun := begin_apply (t := t) h.not_started
  cases hopen : BlockReader.openFile t r.blocks with
  | error e blocks =>
    rw [hopen] at hrun
    cases hbegin.symm.trans hrun
  | ok u blocks =>
    obtain ⟨hheader, hcodec, hnext⟩ :=
      BlockReader.header_of_openFile hentry h.blocks.stream_none h.blocks.header_none hopen
    rw [hopen] at hrun
    simp only at hrun
    cases hdecide : RecordType.decoding (α := α) r.source.binding blocks.header with
    | error e =>
      rw [hdecide] at hrun
      cases hbegin.symm.trans hrun
    | ok decoding =>
      rw [hdecide] at hrun
      cases hbegin.symm.trans hrun
      refine ⟨⟨hafloat, hstart, ⟨hheader, hcodec, decoding, rfl, hdecide⟩, by simp,
        fun hne => absurd h.count hne⟩, h.count, (hopens.leads hopen).2, rfl, fun hzero => ?_⟩
      exact hnext (h.start_eq.trans hzero)

theorem course_of_voyage (h₀ : Ashore content t start r₀) (hlength : content.length < 2 ^ 63)
    (h : Voyage t r₀ last r) : Course content start last r := by
  induction h with
  | begun fractions hbegin =>
    have hsplit := trySplits_keeps (fun _ cut hr => hr.cutAt cut) fractions h₀
    exact .onCourse (onCourse_of_begin hsplit hlength hbegin).1
  | split fraction _ ih => exact ih.trySplit fraction
  | turned _ hturn ih =>
    have hleads := ih.turn hlength
    rw [hturn] at hleads
    exact hleads.1
  | resumed _ hturn hcourse ih =>
    have hleads := ih.turn hlength
    rw [hturn] at hleads
    exact hleads hcourse

/-- Whatever the bytes of a file are and however its reader is split, the records that it returns
are those of blocks that start where it says, within its range, also after failures, as long as
none of them strayed. -/
theorem inStep_of_voyage {source : Source} {number : Nat}
    (hentry : t.entry source.path = .ok (.file number content))
    (hlength : content.length < 2 ^ 63) {scanSize : UInt64} (hscan : 0 < scanSize) :
    ∃ r₀ : ContainerReader α, create t source scanSize = .ok r₀ ∧
      ∀ last r, Voyage t r₀ last r → InStep content source.start last r := by
  obtain ⟨r₀, hcreate, h₀⟩ := create_ashore (α := α) hentry hscan
  exact ⟨r₀, hcreate, fun last r h => (course_of_voyage h₀ hlength h).inStep hlength⟩

def misled : Bytes :=
  let block (marker : SyncMarker) (bird : Bird) : Bytes :=
    { recordCount := 1, payload := bird.encode : Block }.toBytes marker
  { marker := .counting : Header }.toBytes ++ block .counting ⟨1, "owl", "high", 2⟩ ++
    block .zero ⟨2, "jay", "low", 5⟩ ++ block .counting ⟨3, "owl", "low", 1⟩

def misledTree : FileTree where
  entries := [(["misled"], .file 0 misled)]
  made := 1

def misledSource : Source := Plan.birdsSource.subrange "misled" 0 78

/-- The record of the first block is genuine. -/
theorem inStep_of_misled : ∃ r₀ r r₁ : ContainerReader Bird,
    create misledTree misledSource 4 = .ok r₀ ∧ begin misledTree r₀ = .ok () r ∧
      advance r = .ok true r₁ ∧ r₁.current? = some ⟨1, "owl", "high", 2⟩ ∧
      r₁.blocks.blockStart = 21 ∧ Genuine misled 0 r₁ := by
  have hentry : misledTree.entry misledSource.path = .ok (.file 0 misled) := rfl
  have hscan : (0 : UInt64) < 4 := by decide
  obtain ⟨r₀, hcreate, hinStep⟩ := inStep_of_voyage (α := Bird) hentry (by decide +kernel) hscan
  have hbegin : begin misledTree (unstarted (α := Bird) misledSource 4 misled.length) = .ok () _ :=
    Runs.eq_ok_iff.2 (by decide +kernel)
  have hadvance : advance (Runs.after (begin misledTree)
      (unstarted (α := Bird) misledSource 4 misled.length)) = .ok true _ :=
    Runs.eq_ok_iff.2 (by decide +kernel)
  cases hcreate.symm.trans (create_of_entry hentry 4)
  exact ⟨_, _, _, hcreate, hbegin, hadvance, by decide +kernel, by decide +kernel,
    (hinStep _ _ (.begun [] hbegin)).advanced (by decide) _ hadvance⟩

/-- Behind the second block the reader takes the third one for it, which lies past its stop
offset. -/
theorem astray_of_misled : ∃ r₀ r₁ r₂ r₃ : ContainerReader Bird,
    create misledTree misledSource 4 = .ok r₀ ∧
      ContainerReader.start misledTree r₀ = .ok true r₁ ∧
      advance r₁ = .error (.format
        (.blockMarkerMismatch 50 SyncMarker.zero.bytes SyncMarker.counting.bytes)) r₂ ∧
      advance r₂ = .ok true r₃ ∧ r₃.current? = some ⟨3, "owl", "low", 1⟩ ∧
      r₃.blocks.blockStart = 50 ∧ ¬Genuine misled 0 r₃ := by
  have hentry : misledTree.entry misledSource.path = .ok (.file 0 misled) := rfl
  refine ⟨_, _, _, _, create_of_entry hentry 4, Runs.eq_ok_iff.2 ?_, Runs.eq_error_iff.2 ?_,
    Runs.eq_ok_iff.2 ?_, ?_, ?_, ?_⟩
  iterate 5 decide +kernel
  rintro ⟨-, b, data, decoding, attempts, x, d, hblock, -⟩
  obtain ⟨n, s, hread⟩ := hblock.read (by decide +kernel)
  have hfound := congrArg Option.isSome (Runs.value?_of_ok hread)
  rw [Option.isSome_some] at hfound
  exact absurd hfound (by decide +kernel)

end ContainerReader
end BlockContainer
