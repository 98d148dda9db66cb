import BlockContainer.Proofs.Container.Cutting
import BlockContainer.Proofs.Reader.AnyBytes

/-! # Files that go on behind a container

A file that begins with a container is read like the container as far as that reaches. A reader
of a range that goes on, too, returns the records of the container that are in the range, one
after another, and then goes on where the reader of the container finds the end. If what
follows is not a block, it fails there.
-/
namespace BlockContainer

variable {α : Type} {c : Container α} {content : Bytes}

/-- The content begins with the container and goes on behind it, and so does a range up to this
offset. -/
structure Container.Extends (c : Container α) (content : Bytes) (stop : UInt64) : Prop where
  begins : c.content <+: content
  longer : c.content.length < content.length
  length_lt : content.length < 2 ^ 63
  stop_behind : c.content.length < stop.toNat

/-- No block follows the container. -/
def Container.Torn (c : Container α) (content : Bytes) : Prop :=
  ∀ b framing bytes, Block.Spelled c.header.marker b framing bytes →
    ¬bytes <+: content.drop c.content.length

namespace BlockReader

def onto (content : Bytes) (stop : UInt64) (s : InputStream) (r : BlockReader) : BlockReader :=
  { r with
    stream? := some s
    fileSize := UInt64.ofNat content.length
    tracker := { r.tracker with originalStop := stop, stop } }

variable {r : BlockReader} {s : InputStream} {stop : UInt64}

/-- Unpacking does not depend on the stream. -/
theorem unpack_onto {b : Block} {r' : BlockReader} (h : unpack b r = .ok () r') :
    unpack b (r.onto content stop s) = .ok () (r'.onto content stop s) := by
  obtain ⟨codec, data, hcodec, hdata, rfl⟩ := unpack_eq_ok_iff.1 h
  exact unpack_eq_ok_iff.2 ⟨codec, data, hcodec, hdata, rfl⟩

/-- In a longer file, too, the next block of the container may be read. -/
theorem approach_onto (hlength : content.length < 2 ^ 63)
    (hlt : r.nextBlockStart.toNat < content.length) (hbefore : r.nextBlockStart.toNat < stop.toNat)
    (horder : ∀ last ∈ r.tracker.last?, last ≤ r.nextBlockStart) :
    approach (r.onto content stop s) = .ok true (onto content stop s
      { r with tracker := { r.tracker with last? := some r.nextBlockStart } }) := by
  have hinside : r.nextBlockStart < UInt64.ofNat content.length := by
    rw [UInt64.lt_iff_toNat_lt, UInt64.toNat_ofNat']
    omega
  have hgranted : ¬stop ≤ r.nextBlockStart := by
    rw [UInt64.le_iff_toNat_le]
    omega
  have hasks : (r.onto content stop s).asks? = some r.nextBlockStart :=
    asks_eq_some.2 ⟨hinside, rfl⟩
  have hreport := RangeTracker.tryReturn_in_order true (fun _ => rfl)
    (t := (r.onto content stop s).tracker) horder
  rw [approach_asks rfl, hasks]
  simp only [focus, hreport]
  rw [if_neg fun hstop => hgranted hstop.2]
  rfl

/-- A block of the container is read alike in the longer file. -/
theorem readBlock_onto (h : c.Extends content stop) (hstanding : Standing c r)
    (hlt : r.nextBlockStart.toNat < c.content.length)
    (hs : InputStream.At .file content r.nextBlockStart.toNat s) :
    ∃ b r₁ s₁, readBlock r = .ok b r₁ ∧
      readBlock (r.onto content stop s) = .ok b (r₁.onto content stop s₁) ∧
      InputStream.At .file content r₁.nextBlockStart.toNat s₁ := by
  obtain ⟨s₀, hstream, hat⟩ := hstanding.stream_at
  obtain ⟨ahead, hahead⟩ := hstanding.resumes
  obtain ⟨b, rest, rfl, -⟩ := hahead.cons hlt
  obtain ⟨framing, bytes, t, hspelled, hdrop, -⟩ := hahead.1.spelled hahead.le c.length_lt
  rw [← hstanding.header_eq] at hspelled
  obtain ⟨t', hdrop'⟩ := InputStream.drop_of_prefix h.begins hdrop
  obtain ⟨hnext, s₁, hread, -⟩ :=
    readBlock_at c.length_lt hstream hat hstanding.fileSize_eq hspelled hdrop
  obtain ⟨-, s₁', hread', hat'⟩ :=
    readBlock_at (r := r.onto content stop s) h.length_lt rfl hs rfl hspelled hdrop'
  refine ⟨b.block, _, s₁', hread, hread', ?_⟩
  simp only [hnext]
  exact hat'

/-- Behind the container no block is read. -/
theorem readBlock_torn (h : c.Torn content) (hheader : r.header = c.header)
    (hend : r.nextBlockStart.toNat = c.content.length) (hstream : r.stream? = some s)
    (hs : InputStream.At .file content r.nextBlockStart.toNat s) :
    ∃ e r', readBlock r = .error e r' ∧ e.InBytes := by
  cases hread : readBlock r with
  | error e r' => exact ⟨e, r', rfl, failsWith_readBlock hread⟩
  | ok b r' =>
    obtain ⟨framing, bytes, t, -, hspelled, hdrop, -⟩ := spelled_of_readBlock hstream hs hread
    rw [hheader] at hspelled
    rw [hend] at hdrop
    exact absurd ⟨t, hdrop.symm⟩ (h b framing bytes hspelled)

/-- Opening a file whose range begins with it takes the reader behind the header. -/
theorem openFile_from_start {t : FileTree} {number : Nat} {header : Header} {codec : Codec}
    (hentry : t.entry r.filename = .ok (.file number content)) (hlength : content.length < 2 ^ 63)
    (hstream : r.stream? = none) (hheader : r.header = {}) (hstart : r.tracker.start = 0)
    (hread : Header.read { stream := .ofBytes .file content, header := {} } =
      .ok () { stream := s, header })
    (hcodec : CodecRegistry.standard.create header.codec = .ok codec) :
    ∃ s', openFile t r = .ok () { r with
        stream? := some s', file? := some number, header, codec? := some codec
        nextBlockStart := UInt64.ofNat header.size } ∧
      InputStream.At .file content (UInt64.ofNat header.size).toNat s' := by
  obtain ⟨hat, -, hle, -⟩ := Header.at_of_read hread
  refine ⟨s.clear.seek (UInt64.ofNat header.size).toNat, ?_, ?_⟩
  · rw [openFile_of_entry hentry hstream hheader hread hcodec]
    exact align_from_start (r := { r with
      stream? := some s, file? := some number, header, codec? := some codec }) rfl hstart
  · apply (InputStream.Near.of_at hat).at_clear.seek_file
    rw [UInt64.toNat_ofNat']
    omega

end BlockReader

namespace ContainerReader

/-- From this call on the reader returns just these records, and then fails in this way. -/
def ReturnsUntil (ending : Error → Prop) :
    EStateM.Result Error (ContainerReader α) Bool → List α → Prop
  | .error e _, [] => ending e
  | .ok true r, record :: rest => r.current = .ok record ∧ ReturnsUntil ending (advance r) rest
  | _, _ => False

def onto (content : Bytes) (stop : UInt64) (s : InputStream) (r : ContainerReader α) :
    ContainerReader α :=
  { r with blocks := r.blocks.onto content stop s }

/-- The reader was granted what follows the container in the content. -/
structure Beyond (c : Container α) (content : Bytes) (r : ContainerReader α) : Prop where
  started : r.started = true
  decoding_eq : r.decoding? = some c.decoding
  header_eq : r.blocks.header = c.header
  codec_eq : r.blocks.codec? = some c.codec
  fileSize_eq : r.blocks.fileSize = UInt64.ofNat content.length
  next_eq : r.blocks.nextBlockStart.toNat = c.content.length
  stream_at : ∃ s, r.blocks.stream? = some s ∧
    InputStream.At .file content r.blocks.nextBlockStart.toNat s

variable {r : ContainerReader α} {last : Turn} {records more : List α} {s : InputStream}
variable {stop : UInt64}

theorem decodeOne_onto (content : Bytes) (stop : UInt64) (s : InputStream) {d d' : Decoder} {x : α}
    (hdecoding : r.decoding? = some c.decoding) (hd : r.blocks.decoder? = some d)
    (hrun : c.decoding d = .ok x d') :
    ∃ r₁, decodeOne r = .ok () r₁ ∧
      decodeOne (r.onto content stop s) = .ok () (r₁.onto content stop s) ∧
      r₁.blocks.nextBlockStart = r.blocks.nextBlockStart :=
  ⟨_, decodeOne_of_decodes hdecoding hd hrun,
    decodeOne_of_decodes (r := r.onto content stop s) hdecoding hd hrun, rfl⟩

theorem takeBlock_onto (h : c.Extends content stop) (hunder : Underway c .approached r [])
    (hs : InputStream.At .file content r.blocks.nextBlockStart.toNat s) :
    ∃ r₁ s₁, takeBlock r = .ok .unfinished r₁ ∧
      takeBlock (r.onto content stop s) = .ok .unfinished (r₁.onto content stop s₁) ∧
      InputStream.At .file content r₁.blocks.nextBlockStart.toNat s₁ := by
  obtain ⟨-, hlt, -⟩ := hunder.approached rfl
  obtain ⟨r₁, -, hrun, -⟩ := takeBlock_granted hunder
  obtain ⟨b, blocks, s₁, hread, hread', hs₁⟩ :=
    BlockReader.readBlock_onto h hunder.standing hlt hs
  refine ⟨r₁, s₁, hrun, ?_⟩
  have honto : (r.onto content stop s).blocks = r.blocks.onto content stop s := rfl
  rw [takeBlock_apply, hread] at hrun
  rw [takeBlock_apply, honto, hread']
  by_cases hcount : b.recordCount = 0
  · simp only [hcount, if_true] at hrun ⊢
    cases hrun
    exact ⟨rfl, hs₁⟩
  · simp only [hcount, if_false] at hrun ⊢
    cases hunpack : BlockReader.unpack b blocks with
    | error e blocks' =>
      rw [hunpack] at hrun
      cases hrun
    | ok u blocks' =>
      rw [hunpack] at hrun
      cases hrun
      obtain ⟨_, data, -, -, rfl⟩ := BlockReader.unpack_eq_ok_iff.1 hunpack
      rw [BlockReader.unpack_onto hunpack]
      exact ⟨rfl, hs₁⟩

/-- A turn comes to the same in the longer file, until the reader of the container finds the
end. Then the reader of the longer file is granted what follows. -/
theorem turn_onto (h : c.Extends content stop) (howes : Owes c last r records)
    (hstop : r.blocks.tracker.stop.toNat = c.content.length)
    (hs : InputStream.At .file content r.blocks.nextBlockStart.toNat s) :
    (∃ next r₁ s₁, turn last r = .ok next r₁ ∧ next ≠ .finished ∧
      turn last (r.onto content stop s) = .ok next (r₁.onto content stop s₁) ∧
      InputStream.At .file content r₁.blocks.nextBlockStart.toNat s₁) ∨
    ∃ r₁ r₂, turn last r = .ok .finished r₁ ∧
      turn last (r.onto content stop s) = .ok .approached r₂ ∧ Beyond c content r₂ := by
  obtain ⟨inBlock, hunder, -⟩ := howes
  rw [turn_apply hunder.started, turn_apply (r := r.onto content stop s) hunder.started]
  by_cases hlast : last = .approached
  · subst hlast
    obtain ⟨rfl, -⟩ := hunder.approached rfl
    obtain ⟨r₁, s₁, hrun, hrun', hs₁⟩ := takeBlock_onto h hunder hs
    rw [if_pos rfl, if_pos rfl]
    exact .inl ⟨_, r₁, s₁, hrun, by decide, hrun', hs₁⟩
  rw [if_neg hlast, if_neg hlast]
  cases inBlock with
  | cons x inBlock =>
    obtain ⟨d, hd, d', hdecodes, -⟩ := hunder.decodes (by simp)
    have hleft : r.recordsLeft ≠ 0 := by simp [hunder.count]
    obtain ⟨r₁, hrun, hrun', hnext⟩ := decodeOne_onto content stop s hunder.decoding_eq hd hdecodes
    rw [proceed_busy hleft, proceed_busy (r := r.onto content stop s) hleft, Runs.bind_of_ok hrun,
      Runs.bind_of_ok hrun']
    exact .inl ⟨_, r₁, s, rfl, by decide, rfl, by rwa [hnext]⟩
  | nil =>
    have hleft : r.recordsLeft = 0 := hunder.count
    obtain ⟨ahead, hahead⟩ := hunder.standing.resumes
    have hle := hahead.le
    have happroach := BlockReader.approach_of_standing hunder.standing hunder.order
    have happroach' := BlockReader.approach_onto (s := s) h.length_lt
      (Nat.lt_of_le_of_lt hle h.longer) (Nat.lt_of_le_of_lt hle h.stop_behind) hunder.order
    have honto : (r.onto content stop s).blocks = r.blocks.onto content stop s := rfl
    rw [proceed_idle hleft, proceed_idle (r := r.onto content stop s) hleft, honto, happroach',
      happroach]
    by_cases hlt : r.blocks.nextBlockStart.toNat < c.content.length
    · have hgranted : r.blocks.nextBlockStart < r.blocks.tracker.stop := by
        rw [UInt64.lt_iff_toNat_lt]
        omega
      rw [if_pos ⟨hlt, hgranted⟩]
      exact .inl ⟨_, _, s, rfl, by decide, rfl, hs⟩
    · rw [if_neg fun hgranted => hlt hgranted.1]
      have hend : r.blocks.nextBlockStart.toNat = c.content.length := by omega
      exact .inr ⟨_, _, rfl, rfl, hunder.started, hunder.decoding_eq, hunder.standing.header_eq,
        hunder.standing.codec_eq, rfl, hend, s, rfl, hs⟩

/-- What the reader of the longer file comes to: the same record as the reader of the container,
or what follows where the other finds the end. -/
def Follows (c : Container α) (content : Bytes) (stop : UInt64)
    (result : EStateM.Result Error (ContainerReader α) Bool) :
    EStateM.Result Error (ContainerReader α) Bool → Prop
  | .ok true r₁ => ∃ s₁, result = .ok true (r₁.onto content stop s₁) ∧
      InputStream.At .file content r₁.blocks.nextBlockStart.toNat s₁
  | _ => ∃ r₂, Beyond c content r₂ ∧ result = turns .approached r₂

theorem turns_onto (h : c.Extends content stop) (howes : Owes c last r records)
    (hstop : r.blocks.tracker.stop.toNat = c.content.length)
    (hs : InputStream.At .file content r.blocks.nextBlockStart.toNat s) :
    Follows c content stop (turns last (r.onto content stop s)) (turns last r) := by
  have hstep := turn_onto h howes hstop hs
  fun_induction turns last r generalizing records s with
  | case1 last r e r' hturn =>
    obtain ⟨next, r'', hrun, -⟩ := turn_of_owes howes
    cases hturn.symm.trans hrun
  | case2 last r r' hturn =>
    rcases hstep with ⟨next, r₁, s₁, hrun, hne, -⟩ | ⟨r₁, r₂, -, hrun', hbeyond⟩
    · cases hturn.symm.trans hrun
      exact absurd rfl hne
    · refine ⟨r₂, hbeyond, ?_⟩
      rw [turns_apply last (r.onto content stop s), hrun']
  | case3 last r r' hturn =>
    rcases hstep with ⟨next, r₁, s₁, hrun, -, hrun', hs₁⟩ | ⟨r₁, r₂, hrun, -⟩
    · cases hturn.symm.trans hrun
      refine ⟨s₁, ?_, hs₁⟩
      rw [turns_apply last (r.onto content stop s), hrun']
    · cases hturn.symm.trans hrun
  | case4 last r r' hturn ih | case5 last r r' hturn ih =>
    obtain ⟨next, r'', hrun'', hmoved⟩ := turn_of_owes howes
    cases hturn.symm.trans hrun''
    obtain ⟨rest, howes', -⟩ := hmoved.owes
    rcases hstep with ⟨next, r₁, s₁, hrun, -, hrun', hs₁⟩ | ⟨r₁, r₂, hrun, -⟩
    · cases hturn.symm.trans hrun
      have hstop' : r'.blocks.tracker.stop.toNat = c.content.length := by
        rw [hmoved.same.stop_eq]
        exact hstop
      rw [turns_apply last (r.onto content stop s), hrun']
      exact ih howes' hstop' hs₁ (turn_onto h howes' hstop' hs₁)
    · cases hturn.symm.trans hrun

theorem advance_onto (h : c.Extends content stop) (hlast : last ≠ .approached)
    (howes : Owes c last r records) (hstop : r.blocks.tracker.stop.toNat = c.content.length)
    (hs : InputStream.At .file content r.blocks.nextBlockStart.toNat s) :
    Follows c content stop (advance (r.onto content stop s)) (advance r) := by
  obtain ⟨inBlock, hunder, -⟩ := id howes
  rw [advance_eq_turns hlast (r.onto content stop s) hunder.started,
    advance_eq_turns hlast r hunder.started]
  exact turns_onto h howes hstop hs

/-- Further calls return the other records of the container, and then what follows. -/
theorem returnsUntil_of_follows (h : c.Extends content stop) {ending : Error → Prop}
    (hbeyond : ∀ r₂, Beyond c content r₂ → ReturnsUntil ending (turns .approached r₂) more)
    {r₁ : ContainerReader α} {found : Bool}
    {result : EStateM.Result Error (ContainerReader α) Bool}
    (hmoved : Moved c r records (.ofFound found) r₁)
    (hstop : r.blocks.tracker.stop.toNat = c.content.length)
    (hfollows : Follows c content stop result (.ok found r₁)) :
    ReturnsUntil ending result (records ++ more) := by
  rw [← hmoved.same.stop_eq] at hstop
  induction records generalizing r r₁ found result with
  | nil =>
    cases found with
    | false =>
      obtain ⟨r₂, hr₂, rfl⟩ := hfollows
      exact hbeyond r₂ hr₂
    | true =>
      obtain ⟨x, rest, hrecords, -⟩ := hmoved.first
      cases hrecords
  | cons record records ih =>
    cases found with
    | false => cases hmoved.finished rfl
    | true =>
      obtain ⟨s₁, rfl, hs₁⟩ := hfollows
      obtain ⟨x, rest, hrecords, hcurrent, howes⟩ := hmoved.first
      cases hrecords
      have hnext := advance_onto h (by decide) howes hstop hs₁
      obtain ⟨found, r₂, hadvance, hmoved'⟩ := advance_of_owes (by decide) howes
      rw [hadvance] at hnext
      exact ⟨hcurrent, ih hmoved' (by rwa [hmoved'.same.stop_eq]) hnext⟩

def opened (c : Container α) (source : Source) (scanSize : UInt64) (number : Nat)
    (next : UInt64) : ContainerReader α where
  source := source
  blocks := {
    filename := source.path
    scanSize := scanSize.toNat
    fileSize := UInt64.ofNat c.content.length
    tracker := .ofRange source.start (UInt64.ofNat c.content.length)
    stream? := some ((InputStream.ofBytes .file c.content).seek next.toNat)
    file? := some number
    header := c.header
    codec? := some c.codec
    nextBlockStart := next }
  decoding? := some c.decoding
  started := true

theorem owes_opened {source : Source} (scanSize : UInt64) (number : Nat) {next : UInt64}
    {ahead : List (PlacedBlock α)} (hresumes : c.Resumes next.toNat ahead)
    (hle : source.start ≤ next)
    (hpassed : ∀ b ∈ c.blocks, b.offset < next.toNat → b.offset < source.start.toNat) :
    Owes c .unfinished (opened c source scanSize number next)
      (c.recordsIn source.start.toNat c.content.length) := by
  have hlength := c.length_lt
  have hbound := hresumes.le
  have hend : (UInt64.ofNat c.content.length).toNat = c.content.length := by
    rw [UInt64.toNat_ofNat']
    omega
  have hstands : InputStream.At .file c.content next.toNat
      ((InputStream.ofBytes .file c.content).seek next.toNat) :=
    (InputStream.At.ofBytes _ _).seek_file (by omega)
  refine ⟨[], ⟨rfl, rfl, ⟨rfl, rfl, rfl, ⟨_, rfl, hstands⟩, ahead, hresumes⟩, rfl, by simp, ?_, hle,
    fun b hb hbefore => .inl (hpassed b hb hbefore), by simp, by simp⟩, ?_⟩
  · intro offset hoffset
    cases hoffset
  · change _ = c.recordsIn next.toNat (UInt64.ofNat c.content.length).toNat
    rw [hend]
    refine Container.recordsIn_skip fun b hb => ⟨fun hin => ?_, fun hin => ?_⟩
    · exact Nat.not_lt.1 fun hbefore => Nat.not_le.2 (hpassed b hb hbefore) hin
    · exact Nat.le_trans (UInt64.le_iff_toNat_le.1 hle) hin

def rangeEnd (source : Source) (content : Bytes) : UInt64 :=
  max source.start (min source.stop (UInt64.ofNat content.length))

theorem rangeEnd_of_le {source : Source} (hstart : source.start.toNat ≤ source.stop.toNat)
    (hstop : source.stop.toNat ≤ content.length) (hlength : content.length < 2 ^ 63) :
    (rangeEnd source content).toNat = source.stop.toNat := by
  rw [rangeEnd, toNat_max, toNat_min, UInt64.toNat_ofNat', Nat.mod_eq_of_lt (by omega)]
  omega

theorem rangeEnd_unbounded {source : Source} (hstart : source.start = 0)
    (hstop : source.stop = Source.unbounded) (hlength : content.length < 2 ^ 63) :
    (rangeEnd source content).toNat = content.length := by
  have hleast : (0 : UInt64).toNat = 0 := rfl
  have hmost : Source.unbounded.toNat = 2 ^ 64 - 1 := rfl
  rw [rangeEnd, hstart, hstop, toNat_max, toNat_min, UInt64.toNat_ofNat', hmost, hleast,
    Nat.mod_eq_of_lt (by omega)]
  omega

section Range

variable [RecordType α] {t : FileTree} {source : Source} {number : Nat} {scanSize : UInt64}

/-- A reader of a range that starts with the file or at a cut of the container comes to stand at
the first block of the range. -/
theorem begin_onto (h : c.Extends content (rangeEnd source content))
    (hentry : t.entry source.path = .ok (.file number content))
    (hstart : source.start = 0 ∨ c.Cut source.start.toNat ∧ 0 < scanSize)
    (hdecoding : RecordType.decoding source.binding c.header = .ok c.decoding) :
    ∃ r s, begin t (unstarted source scanSize content.length) =
        .ok () (r.onto content (rangeEnd source content) s) ∧
      r.blocks.tracker.stop.toNat = c.content.length ∧
      Owes c .unfinished r (c.recordsIn source.start.toNat c.content.length) ∧
      InputStream.At .file content r.blocks.nextBlockStart.toNat s := by
  have hlength := c.length_lt
  have hend : (UInt64.ofNat c.content.length).toNat = c.content.length := by
    rw [UInt64.toNat_ofNat']
    omega
  rcases hstart with hzero | ⟨hcut, hscan⟩
  · obtain ⟨s, hread⟩ := c.header_read_of_begins h.begins
    obtain ⟨s₁, hopen, hs₁⟩ := BlockReader.openFile_from_start (t := t)
      (r := (unstarted source scanSize content.length : ContainerReader α).blocks) hentry
      h.length_lt rfl rfl hzero hread c.codec_found
    have hnext : (UInt64.ofNat c.header.size).toNat = c.header.size := by
      have hheader := c.header_le
      rw [UInt64.toNat_ofNat']
      omega
    refine ⟨opened c source scanSize number (UInt64.ofNat c.header.size), s₁, ?_, hend, ?_, hs₁⟩
    · rw [begin_apply rfl, hopen]
      simp only [unstarted, hdecoding]
      rfl
    · refine owes_opened scanSize number (hnext.symm ▸ c.resumes_header) ?_ fun b hb hbefore => ?_
      · rw [hzero]
        exact UInt64.zero_le
      · have hbound := (c.offset_bounds b hb).1
        omega
  · obtain ⟨s₁, hopen, hs₁⟩ := BlockReader.openFile_from_cut (t := t)
      (r := (unstarted source scanSize content.length : ContainerReader α).blocks) h.begins hentry
      h.length_lt rfl rfl (UInt64.lt_iff_toNat_lt.1 hscan) hcut
    obtain ⟨ahead, hresumes⟩ := hcut.resumes
    refine ⟨opened c source scanSize number source.start, s₁, ?_, hend, ?_, hs₁⟩
    · rw [begin_apply rfl, hopen]
      simp only [unstarted, hdecoding]
      rfl
    · exact owes_opened scanSize number hresumes UInt64.le_rfl fun b hb hbefore => hbefore

/-- A reader of the longer file returns the records of the container that are in its range, and
then what follows. -/
theorem returnsUntil_extended (h : c.Extends content (rangeEnd source content))
    {ending : Error → Prop}
    (hbeyond : ∀ r₂, Beyond c content r₂ → ReturnsUntil ending (turns .approached r₂) more)
    (hentry : t.entry source.path = .ok (.file number content))
    (hstart : source.start = 0 ∨ c.Cut source.start.toNat ∧ 0 < scanSize)
    (hdecoding : RecordType.decoding source.binding c.header = .ok c.decoding) :
    ReturnsUntil ending (start t (unstarted source scanSize content.length))
      (c.recordsIn source.start.toNat c.content.length ++ more) := by
  obtain ⟨r, s, hbegin, hend, howes, hs⟩ := begin_onto h hentry hstart hdecoding
  obtain ⟨found, r₁, hadvance, hmoved⟩ := advance_of_owes (by decide) howes
  have hfollows := advance_onto h (by decide) howes hend hs
  rw [hadvance] at hfollows
  rw [start_of_begin hbegin]
  exact returnsUntil_of_follows h hbeyond hmoved hend hfollows

/-- If no block follows, the reader fails behind the records of the container. -/
theorem returnsUntil_torn (h : c.Extends content (rangeEnd source content))
    (htorn : c.Torn content) (hentry : t.entry source.path = .ok (.file number content))
    (hstart : source.start = 0)
    (hdecoding : RecordType.decoding source.binding c.header = .ok c.decoding) :
    ReturnsUntil Error.InBytes (start t (unstarted source scanSize content.length)) c.records := by
  have hbeyond (r₂ : ContainerReader α) (hr₂ : Beyond c content r₂) :
      ReturnsUntil Error.InBytes (turns .approached r₂) [] := by
    obtain ⟨s, hstream, hs⟩ := hr₂.stream_at
    obtain ⟨e, blocks, hread, hinBytes⟩ :=
      BlockReader.readBlock_torn htorn hr₂.header_eq hr₂.next_eq hstream hs
    rw [turns_take hr₂.started, hread]
    exact hinBytes
  have hzero : source.start.toNat = 0 := congrArg UInt64.toNat hstart
  have hall := returnsUntil_extended h hbeyond hentry
    (.inl hstart : _ ∨ c.Cut source.start.toNat ∧ 0 < scanSize) hdecoding
  rwa [List.append_nil, hzero, c.recordsIn_all] at hall

end Range

end ContainerReader
end BlockContainer
