import BlockContainer.Proofs.Container.Blocks

/-! # What a reader still has to return

At any moment between two turns a reader still has to return the rest of its present block
and the records of the blocks ahead that start before its stop offset. A turn returns the
first of them or leaves them as they are; a split gives up those from the cut on.
-/
namespace BlockContainer.ContainerReader

variable {α : Type} {c : Container α} {r : ContainerReader α} {last : Turn} {records : List α}

/-- The reader is between two turns, with these records of the present block to come. -/
structure Underway (c : Container α) (last : Turn) (r : ContainerReader α) (inBlock : List α) :
    Prop where
  started : r.started = true
  decoding_eq : r.decoding? = some c.decoding
  standing : r.blocks.Standing c
  count : r.recordsLeft = inBlock.length
  decodes : inBlock ≠ [] → ∃ d, r.blocks.decoder? = some d ∧ Decodes c.decoding d inBlock
  order : ∀ offset ∈ r.blocks.tracker.last?, offset ≤ r.blocks.nextBlockStart
  start_le : r.blocks.tracker.start ≤ r.blocks.nextBlockStart
  passed : ∀ b ∈ c.blocks, b.offset < r.blocks.nextBlockStart.toNat →
    b.offset < r.blocks.tracker.start.toNat ∨
      ∃ offset ∈ r.blocks.tracker.last?, b.offset ≤ offset.toNat
  approached : last = .approached → inBlock = [] ∧
    r.blocks.nextBlockStart.toNat < c.content.length ∧
    r.blocks.nextBlockStart < r.blocks.tracker.stop ∧
    r.blocks.tracker.last? = some r.blocks.nextBlockStart
  finished : last = .finished → inBlock = [] ∧ r.blocks.tracker.done = true ∧
    c.recordsIn r.blocks.nextBlockStart.toNat r.blocks.tracker.stop.toNat = []

/-- The records that the reader still has to return, if it is not split. -/
def Owes (c : Container α) (last : Turn) (r : ContainerReader α) (records : List α) : Prop :=
  ∃ inBlock, Underway c last r inBlock ∧ records =
    inBlock ++ c.recordsIn r.blocks.nextBlockStart.toNat r.blocks.tracker.stop.toNat

theorem Owes.counted (h : Owes c last r records) : Owes c .unfinished r records := by
  obtain ⟨inBlock, hunder, hrecords⟩ := h
  exact ⟨inBlock, { hunder with approached := by simp, finished := by simp }, hrecords⟩

theorem Owes.finished (h : Owes c .finished r records) : records = [] := by
  obtain ⟨inBlock, hunder, rfl⟩ := h
  obtain ⟨rfl, -, hnone⟩ := hunder.finished rfl
  rw [hnone]
  rfl

structure SameRange (r r' : ContainerReader α) : Prop where
  source_eq : r'.source = r.source
  start_eq : r'.blocks.tracker.start = r.blocks.tracker.start
  stop_eq : r'.blocks.tracker.stop = r.blocks.tracker.stop

def brought (next : Turn) (r : ContainerReader α) : List α :=
  if next = .record then r.current?.toList else []

structure Moved (c : Container α) (r : ContainerReader α) (records : List α) (next : Turn)
    (r' : ContainerReader α) : Prop where
  same : SameRange r r'
  owes : ∃ rest, Owes c next r' rest ∧ records = brought next r' ++ rest
  record : next = .record → r'.current?.isSome
  finished : next = .finished → records = []

theorem decodeOne_of_decodes (hdecoding : r.decoding? = some c.decoding) {d d' : Decoder} {x : α}
    (hd : r.blocks.decoder? = some d) (hrun : c.decoding d = .ok x d') :
    decodeOne r = .ok () { r with
      blocks := { r.blocks with decoder? := some d' }
      current? := some x, recordsLeft := r.recordsLeft - 1 } := by
  rw [decodeOne_apply hdecoding hd, hrun]

theorem proceed_in_block {inBlock : List α} {x : α}
    (h : Underway c last r (x :: inBlock)) :
    ∃ r', proceed r = .ok .record r' ∧ SameRange r r' ∧ Underway c .record r' inBlock ∧
      r'.blocks.nextBlockStart = r.blocks.nextBlockStart ∧ r'.current? = some x := by
  obtain ⟨d, hd, d', hrun, hrest⟩ := h.decodes (by simp)
  have hleft : r.recordsLeft ≠ 0 := by simp [h.count]
  have hdecode := decodeOne_of_decodes h.decoding_eq hd hrun
  refine ⟨{ r with
    blocks := { r.blocks with decoder? := some d' }
    current? := some x, recordsLeft := r.recordsLeft - 1 }, ?_, ⟨rfl, rfl, rfl⟩,
    ⟨h.started, h.decoding_eq, h.standing.withDecoder _, ?_, ?_, h.order, h.start_le, h.passed,
      by simp, by simp⟩, rfl, rfl⟩
  · rw [proceed_busy hleft, Runs.bind_of_ok hdecode]
    rfl
  · simp [h.count]
  · exact fun _ => ⟨d', rfl, hrest⟩

/-- A turn that asks for the next block. -/
theorem proceed_between (h : Underway c last r []) :
    ∃ next r', proceed r = .ok next r' ∧ next ≠ .record ∧ SameRange r r' ∧
      Underway c next r' [] ∧ r'.blocks.nextBlockStart = r.blocks.nextBlockStart := by
  have hleft : r.recordsLeft = 0 := h.count
  have happroach := BlockReader.approach_of_standing h.standing h.order
  rw [proceed_idle hleft]
  by_cases hgranted : r.blocks.nextBlockStart.toNat < c.content.length ∧
      r.blocks.nextBlockStart < r.blocks.tracker.stop
  · rw [if_pos hgranted] at happroach
    rw [happroach]
    refine ⟨.approached, _, rfl, by decide, ⟨rfl, rfl, rfl⟩, ⟨h.started, h.decoding_eq,
      h.standing.withTracker _, h.count, by simp, ?_, h.start_le, ?_, ?_, by simp⟩, rfl⟩
    · simp
    · exact fun b hb hlt => .inr ⟨_, rfl, Nat.le_of_lt hlt⟩
    · exact fun _ => ⟨rfl, hgranted.1, hgranted.2, rfl⟩
  · rw [if_neg hgranted] at happroach
    rw [happroach]
    refine ⟨.finished, _, rfl, by decide, ⟨rfl, rfl, rfl⟩, ⟨h.started, h.decoding_eq,
      h.standing.withTracker _, h.count, by simp, h.order, h.start_le, h.passed, by simp, ?_⟩, rfl⟩
    · refine fun _ => ⟨rfl, rfl, Container.recordsIn_eq_nil fun b hb hle => ?_⟩
      have hbound := (c.offset_bounds b hb).2
      rw [UInt64.lt_iff_toNat_lt] at hgranted
      change r.blocks.tracker.stop.toNat ≤ b.offset
      change r.blocks.nextBlockStart.toNat ≤ b.offset at hle
      omega

theorem takeBlock_granted (h : Underway c .approached r []) :
    ∃ r' inBlock, takeBlock r = .ok .unfinished r' ∧ SameRange r r' ∧
      Underway c .unfinished r' inBlock ∧
      c.recordsIn r.blocks.nextBlockStart.toNat r.blocks.tracker.stop.toNat =
        inBlock ++ c.recordsIn r'.blocks.nextBlockStart.toNat r.blocks.tracker.stop.toNat := by
  obtain ⟨-, hlt, hstop, hlast⟩ := h.approached rfl
  obtain ⟨ahead, hahead⟩ := h.standing.resumes
  obtain ⟨b, rest, rfl, hoffset⟩ := hahead.cons hlt
  obtain ⟨blocks, hread, hstanding, hnext, htracker, hcount⟩ :=
    BlockReader.readBlock_of_standing h.standing hahead
  have hholds := c.holds b hahead.mem_head
  have hbehind : r.blocks.nextBlockStart.toNat < blocks.nextBlockStart.toNat := by
    rw [hnext]
    exact hahead.tail.1
  have hrecords := hahead.recordsIn_cons (UInt64.lt_iff_toNat_lt.1 hstop)
  rw [← hnext] at hrecords
  have horder : ∀ offset ∈ blocks.tracker.last?, offset ≤ blocks.nextBlockStart := by
    intro offset hoffset
    rw [htracker] at hoffset
    rw [UInt64.le_iff_toNat_le]
    have := UInt64.le_iff_toNat_le.1 (h.order offset hoffset)
    omega
  have hstart : blocks.tracker.start ≤ blocks.nextBlockStart := by
    have := UInt64.le_iff_toNat_le.1 h.start_le
    rw [htracker, UInt64.le_iff_toNat_le]
    omega
  have hpassed : ∀ b' ∈ c.blocks, b'.offset < blocks.nextBlockStart.toNat →
      b'.offset < blocks.tracker.start.toNat ∨
        ∃ offset ∈ blocks.tracker.last?, b'.offset ≤ offset.toNat := by
    intro b' hb' hbefore
    refine .inr ⟨r.blocks.nextBlockStart, by rw [htracker]; exact hlast, ?_⟩
    by_cases hold : r.blocks.nextBlockStart.toNat ≤ b'.offset
    · obtain ⟨-, hle, hrest⟩ := hahead.tail
      rcases List.mem_cons.1 ((hahead.mem_iff hb').1 hold) with rfl | hmem
      · exact Nat.le_of_eq hoffset
      · have := (hrest.mem_iff hb').2 hmem
        omega
    · omega
  by_cases hempty : b.records = []
  · have hzero : b.block.recordCount = 0 := by
      have := hholds.count
      rw [hempty] at this
      exact Int64.toInt_inj.1 this
    refine ⟨{ r with blocks }, [], ?_, ⟨rfl, by rw [htracker], by rw [htracker]⟩,
      ⟨h.started, h.decoding_eq, hstanding, h.count, by simp, horder, hstart, hpassed, by simp,
        by simp⟩, ?_⟩
    · rw [takeBlock_apply, hread]
      simp [hzero]
    · rw [hrecords, hempty]
  · have hne : b.block.recordCount ≠ 0 := by
      intro hzero
      have := hholds.count
      rw [hzero] at this
      exact hempty (List.eq_nil_of_length_eq_zero (by simpa using this.symm))
    obtain ⟨data, hdata, hdecodes⟩ := hholds.unpacks.resolve_left hempty
    have hunpack := BlockReader.unpack_of_standing hstanding hdata
    have hleft : blocks.recordCount.toInt.toNat = b.records.length := by
      have := hholds.count
      rw [hcount]
      omega
    refine ⟨{ r with
      blocks := { blocks with decoder? := some (.ofBytes data) }
      recordsLeft := blocks.recordCount.toInt.toNat }, b.records, ?_,
      ⟨rfl, by simp [htracker], by simp [htracker]⟩, ⟨h.started, h.decoding_eq,
        hstanding.withDecoder _, hleft, fun _ => ⟨_, rfl, hdecodes⟩, horder, hstart, hpassed,
        by simp, by simp⟩, hrecords⟩
    rw [takeBlock_apply, hread]
    simp [hne, hunpack]

/-- A turn of a reader never fails, and it returns the first of the records or none. -/
theorem turn_of_owes (h : Owes c last r records) :
    ∃ next r', turn last r = .ok next r' ∧ Moved c r records next r' := by
  obtain ⟨inBlock, hunder, rfl⟩ := h
  rw [turn_apply hunder.started]
  by_cases happroached : last = .approached
  · obtain ⟨rfl, -⟩ := hunder.approached happroached
    subst happroached
    obtain ⟨r', inBlock, hrun, hsame, hunder', hrecords⟩ := takeBlock_granted hunder
    rw [if_pos rfl]
    refine ⟨_, r', hrun, hsame, ⟨_, ⟨inBlock, hunder', rfl⟩, ?_⟩, by simp, by simp⟩
    rw [hrecords, hsame.stop_eq]
    simp [brought]
  · rw [if_neg happroached]
    cases inBlock with
    | cons x inBlock =>
      obtain ⟨r', hrun, hsame, hunder', hnext, hx⟩ := proceed_in_block hunder
      refine ⟨_, r', hrun, hsame, ⟨_, ⟨inBlock, hunder', rfl⟩, ?_⟩, by simp [hx], by simp⟩
      simp [brought, hx, hnext, hsame.stop_eq]
    | nil =>
      obtain ⟨next, r', hrun, hne, hsame, hunder', hnext⟩ := proceed_between hunder
      refine ⟨next, r', hrun, hsame, ⟨_, ⟨[], hunder', rfl⟩, ?_⟩, by simp [hne], fun hfinished => ?_⟩
      · simp [brought, hne, hnext, hsame.stop_eq]
      · have := (hunder'.finished hfinished).2.2
        rwa [hnext, hsame.stop_eq] at this

/-- No block that is passed lies behind a cut that the tracker agrees to. -/
theorem Underway.recordsIn_cut {inBlock : List α} (h : Underway c last r inBlock) {cut stop : UInt64}
    (hstart : r.blocks.tracker.start < cut) (hlast : ∀ offset ∈ r.blocks.tracker.last?, offset < cut)
    (hstop : cut < stop) :
    c.recordsIn r.blocks.nextBlockStart.toNat stop.toNat =
      c.recordsIn r.blocks.nextBlockStart.toNat cut.toNat ++ c.recordsIn cut.toNat stop.toNat := by
  rw [UInt64.lt_iff_toNat_lt] at hstart hstop
  rcases Nat.le_total r.blocks.nextBlockStart.toNat cut.toNat with hle | hge
  · exact Container.recordsIn_append hle (Nat.le_of_lt hstop)
  · have hnone : c.recordsIn r.blocks.nextBlockStart.toNat cut.toNat = [] :=
      Container.recordsIn_eq_nil fun b _ hin => by omega
    rw [hnone, List.nil_append]
    refine Container.recordsIn_skip fun b hb => ⟨fun hin => by omega, fun hin => ?_⟩
    apply Nat.not_lt.1
    intro hbefore
    rcases h.passed b hb hbefore with hb | ⟨offset, hoffset, hb⟩
    · omega
    · have := UInt64.lt_iff_toNat_lt.1 (hlast offset hoffset)
      omega

def cutAt (cut : UInt64) (r : ContainerReader α) : ContainerReader α :=
  { r with blocks := { r.blocks with tracker := { r.blocks.tracker with stop := cut } } }

/-- A split of such a reader divides its records in two: it keeps those before the cut and
gives up the rest of the range with those behind it. -/
def Divides (c : Container α) (P : ContainerReader α → List α → Prop) : Prop :=
  ∀ ⦃r records⦄, P r records → ∀ fraction, trySplit fraction r = (none, r) ∨
    ∃ cut kept, trySplit fraction r =
        (some (r.source.subrange r.source.path cut r.blocks.tracker.stop), r.cutAt cut) ∧
      r.blocks.tracker.start < cut ∧ cut < r.blocks.tracker.stop ∧ P (r.cutAt cut) kept ∧
      records = kept ++ c.recordsIn cut.toNat r.blocks.tracker.stop.toNat

theorem trySplit_cases (fraction : UInt64) (r : ContainerReader α) :
    trySplit fraction r = (none, r) ∨ ∃ cut, trySplit fraction r =
        (some (r.source.subrange r.source.path cut r.blocks.tracker.stop), r.cutAt cut) ∧
      r.blocks.tracker.done = false ∧ r.blocks.tracker.start < cut ∧
      cut < r.blocks.tracker.stop ∧ ∀ offset ∈ r.blocks.tracker.last?, offset < cut := by
  rcases RangeTracker.trySplit_cases fraction r.blocks.tracker with hnone | ⟨cut, hcut, hrest⟩
  · refine .inl ?_
    simp only [trySplit, BlockReader.trySplit, hnone, Option.map_none]
  · refine .inr ⟨cut, ?_, hrest⟩
    simp only [trySplit, BlockReader.trySplit, hcut, Option.map_some]
    rfl

theorem divides_owes (c : Container α) (last : Turn) : Divides c (Owes c last) := by
  rintro r records ⟨inBlock, hunder, rfl⟩ fraction
  rcases trySplit_cases fraction r with hnone | ⟨cut, hcut, hdone, hstart, hstop, hafter⟩
  · exact .inl hnone
  · have hrecords := hunder.recordsIn_cut hstart hafter hstop
    refine .inr ⟨cut, inBlock ++ c.recordsIn r.blocks.nextBlockStart.toNat cut.toNat, hcut, hstart,
      hstop, ⟨inBlock, ⟨hunder.started, hunder.decoding_eq, hunder.standing.withTracker _,
        hunder.count, hunder.decodes, hunder.order, hunder.start_le, hunder.passed, ?_, ?_⟩, rfl⟩,
      by rw [hrecords, List.append_assoc]⟩
    · intro happroached
      obtain ⟨hempty, hlt, -, hlast⟩ := hunder.approached happroached
      exact ⟨hempty, hlt, hafter _ hlast, hlast⟩
    · intro hfinished
      have := (hunder.finished hfinished).2.1
      simp [hdone] at this

structure Unopened [RecordType α] (c : Container α) (t : FileTree) (r : ContainerReader α) :
    Prop where
  not_started : r.started = false
  closed : r.blocks.Closed c t
  last_none : r.blocks.tracker.last? = none
  count : r.recordsLeft = 0
  decoding : RecordType.decoding r.source.binding c.header = .ok c.decoding
  findable : r.blocks.Findable c

def Holds [RecordType α] (c : Container α) (t : FileTree) (r : ContainerReader α)
    (records : List α) : Prop :=
  Unopened c t r ∧
    records = c.recordsIn r.blocks.tracker.start.toNat r.blocks.tracker.stop.toNat

theorem divides_holds [RecordType α] (c : Container α) (t : FileTree) :
    Divides c (Holds c t) := by
  rintro r records ⟨h, rfl⟩ fraction
  rcases trySplit_cases fraction r with hnone | ⟨cut, hcut, -, hstart, hstop, -⟩
  · exact .inl hnone
  · refine .inr ⟨cut, c.recordsIn r.blocks.tracker.start.toNat cut.toNat, hcut, hstart, hstop,
      ⟨⟨h.not_started, ⟨h.closed.entry, h.closed.fileSize_eq, h.closed.stream_none,
        h.closed.header_none, h.closed.start_le⟩, h.last_none, h.count, h.decoding,
        h.findable⟩, rfl⟩, ?_⟩
    rw [UInt64.lt_iff_toNat_lt] at hstart hstop
    exact Container.recordsIn_append (Nat.le_of_lt hstart) (Nat.le_of_lt hstop)

/-- A reader that comes to stand at the first block of its range still has to return all records
of the range. -/
theorem begin_of_aligned [RecordType α] {t : FileTree} {blocks : BlockReader}
    (hnew : r.started = false) (hcount : r.recordsLeft = 0) (hlast : r.blocks.tracker.last? = none)
    (hdecoding : RecordType.decoding r.source.binding c.header = .ok c.decoding)
    (hopen : BlockReader.openFile t r.blocks = .ok () blocks)
    (haligned : BlockReader.Aligned c r.blocks.tracker blocks) :
    ∃ r', begin t r = .ok () r' ∧ SameRange r r' ∧ Owes c .unfinished r'
      (c.recordsIn r.blocks.tracker.start.toNat r.blocks.tracker.stop.toNat) := by
  have htracker := haligned.tracker_eq
  refine ⟨{ r with blocks, started := true, decoding? := some c.decoding }, ?_,
    ⟨rfl, by rw [htracker], by rw [htracker]⟩, [],
    ⟨rfl, rfl, haligned.standing, hcount, by simp, ?_, ?_, ?_, by simp, by simp⟩, ?_⟩
  · rw [begin_apply hnew, hopen]
    simp only [haligned.standing.header_eq, hdecoding]
  · simp [htracker, hlast]
  · rw [UInt64.le_iff_toNat_le]
    simpa [htracker] using haligned.start_le
  · intro b hb hbefore
    refine .inl ?_
    simpa [htracker] using haligned.passed b hb hbefore
  · simp only [List.nil_append, htracker]
    refine Container.recordsIn_skip fun b hb => ⟨fun hin => Nat.not_lt.1 fun hbefore => ?_, fun hin => ?_⟩
    · have := haligned.passed b hb hbefore
      omega
    · exact Nat.le_trans haligned.start_le hin

/-- A reader that opens its file still has to return all records of its range. -/
theorem begin_of_unopened [RecordType α] {t : FileTree} (h : Unopened c t r) :
    ∃ r', begin t r = .ok () r' ∧ SameRange r r' ∧ Owes c .unfinished r'
      (c.recordsIn r.blocks.tracker.start.toNat r.blocks.tracker.stop.toNat) := by
  obtain ⟨blocks, hopen, haligned⟩ := BlockReader.openFile_of_closed h.closed h.findable
  exact begin_of_aligned h.not_started h.count h.last_none h.decoding hopen haligned

theorem create_unopened [RecordType α] {t : FileTree} {source : Source} {number : Nat}
    (hentry : t.entry source.path = .ok (.file number c.content))
    (hstart : source.start.toNat ≤ c.content.length)
    (hdecoding : RecordType.decoding source.binding c.header = .ok c.decoding) {scanSize : UInt64}
    (hfind : source.start = 0 ∨ c.MarkersEndBlocks ∧ 0 < scanSize.toNat) :
    ∃ r : ContainerReader α, create t source scanSize = .ok r ∧ Unopened c t r ∧
      r.source = source ∧ r.blocks.tracker.start = source.start ∧
      r.blocks.tracker.stop.toNat = max source.start.toNat (min source.stop.toNat c.content.length) := by
  have hlength := c.length_lt
  refine ⟨_, create_of_entry hentry scanSize, ⟨rfl, ⟨⟨number, hentry⟩, rfl, rfl, rfl, hstart⟩, rfl,
    rfl, hdecoding, hfind⟩, rfl, rfl, ?_⟩
  have hnat : (UInt64.ofNat c.content.length).toNat = c.content.length := by
    rw [UInt64.toNat_ofNat']
    omega
  simp only [unstarted, RangeTracker.ofRange]
  rw [toNat_max, toNat_min, hnat]

end BlockContainer.ContainerReader
