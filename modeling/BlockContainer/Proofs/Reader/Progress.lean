import BlockContainer.Proofs.Range.Progress
import BlockContainer.Proofs.Reader.Steps
import Mathlib.Tactic.Linarith

/-! # Progress through the files of a pattern

Progress is the number of the files that have been passed, and the share of the present one. A
file is passed in another step than the one in which its reader is replaced, and between the two
it counts twice. Without that the progress lies between zero and one and never falls.
-/
namespace BlockContainer

variable {α : Type} {t : FileTree}

namespace BlockReader

/-- Opening a file leaves the range alone. -/
theorem keeps_openFile {tracker : RangeTracker} :
    Runs.Keeps (fun r => r.tracker = tracker) (openFile t) := by
  have htakeUp : Runs.Keeps (fun r : BlockReader => r.tracker = tracker) (takeUp t) := by
    refine .get fun r h => ?_
    split
    · exact h
    · exact h
    · exact h
  have hheader : Runs.Keeps (fun r : BlockReader => r.tracker = tracker) readHeader :=
    .focus (Q := fun _ => True) (fun _ _ => trivial) (fun _ _ => trivial) fun _ _ h _ => h
  have hchoose : Runs.Keeps (fun r : BlockReader => r.tracker = tracker) chooseCodec := by
    refine .get fun r h => ?_
    cases CodecRegistry.standard.create r.header.codec with
    | error e => exact h
    | ok codec => exact h
  have halign : Runs.Keeps (fun r : BlockReader => r.tracker = tracker) align :=
    keeps_align (fun _ _ h => h) fun _ _ h => h
  exact .bind htakeUp fun _ => .bind hheader fun _ => .bind hchoose fun _ => halign

variable {r r' : BlockReader}

theorem done_of_approach (h : approach r = .ok false r') : r'.tracker.done = true := by
  unfold approach at h
  obtain ⟨_, _, hget, h⟩ := bind_eq_ok_iff.1 h
  cases hget
  obtain ⟨_, _, hopen, h⟩ := bind_eq_ok_iff.1 h
  obtain ⟨_, rfl⟩ := ensure_eq_ok_iff.1 hopen
  split at h
  · cases h
    rfl
  · obtain ⟨tracker, htracker, rfl⟩ := focus_eq_ok_iff.1 h
    rcases RangeTracker.tryReturn_cases true r.nextBlockStart r.tracker with
      ⟨cause, hrun⟩ | ⟨hrun, -⟩ | ⟨hrun, -⟩ <;> cases hrun.symm.trans htracker
    rfl

/-- Where there is no further block the range is done with. -/
theorem done_of_readNext (h : readNext r = .ok false r') : r'.tracker.done = true := by
  fun_induction readNext r with
  | case1 => cases h
  | case2 r r' hrun =>
    cases h
    exact done_of_approach hrun
  | case3 => cases h
  | case4 _ _ _ _ _ _ _ ih => exact ih h
  | case5 => cases h
  | case6 => cases h

end BlockReader

namespace ContainerReader

variable {r r' : ContainerReader α}

theorem keeps_begin [RecordType α] {tracker : RangeTracker} :
    Runs.Keeps (fun r : ContainerReader α => r.blocks.tracker = tracker) (begin t) := by
  refine .bind (fun _ h => h) fun r => .bind (.ensure _ _) fun _ => ?_
  refine .bind (.modify fun _ h => h) fun _ => ?_
  refine .bind (keeps_onBlocks BlockReader.keeps_openFile (fun _ h => h) fun _ _ _ h => h) ?_
  intro _
  exact .bind (fun _ h => h) fun _ => .bind (.check _) fun _ => .modify fun _ h => h

/-- To a tracker it makes no difference whether a reader succeeds in moving on. -/
theorem movesOn_advance {tracker : RangeTracker} :
    Runs.Keeps (fun r : ContainerReader α => tracker.MovesOn r.blocks.tracker) advance := by
  have hnext : Runs.Keeps (fun b => tracker.MovesOn b.tracker) BlockReader.readNext :=
    BlockReader.keeps_readNext (fun b call h => h.trans (.perform b.tracker call))
      (fun _ _ _ _ _ h => h) fun _ _ h => h
  exact keeps_advance hnext (fun _ _ h => h) (fun _ h => h) (fun _ _ _ h => h) fun _ _ _ h => h

theorem done_of_advance (h : advance r = .ok false r') : r'.blocks.tracker.done = true := by
  unfold advance at h
  obtain ⟨_, _, hget, h⟩ := bind_eq_ok_iff.1 h
  cases hget
  obtain ⟨_, _, hensure, h⟩ := bind_eq_ok_iff.1 h
  obtain ⟨-, rfl⟩ := ensure_eq_ok_iff.1 hensure
  obtain ⟨found, r₁, hrefill, h⟩ := bind_eq_ok_iff.1 h
  cases found with
  | true =>
    obtain ⟨_, _, -, h⟩ := bind_eq_ok_iff.1 h
    cases h
  | false =>
    cases h
    unfold refill at hrefill
    obtain ⟨_, _, hget, hrefill⟩ := bind_eq_ok_iff.1 hrefill
    cases hget
    split at hrefill
    · cases hrefill
    · obtain ⟨found, r₂, hblocks, hrefill⟩ := bind_eq_ok_iff.1 hrefill
      obtain ⟨b, hnext, rfl⟩ := focus_eq_ok_iff.1 hblocks
      cases found with
      | true =>
        obtain ⟨_, _, -, hrefill⟩ := bind_eq_ok_iff.1 hrefill
        cases hrefill
      | false =>
        obtain ⟨_, _, hmodify, hrefill⟩ := bind_eq_ok_iff.1 hrefill
        cases hmodify
        cases hrefill
        exact BlockReader.done_of_readNext hnext

end ContainerReader

variable [RecordType α]

namespace PatternReader

/-- The range of a file's reader starts with the file, and is done with if the file holds no
record. -/
theorem tracker_of_startFile {source : Source} {scanSize : UInt64} {path : Bytes}
    {reader : ContainerReader α} {found : Bool}
    (h : startFile t source scanSize path = .ok (reader, found)) :
    reader.blocks.tracker.start = 0 ∧ (found = false → reader.blocks.tracker.done = true) := by
  obtain ⟨number, content, r, -, hbegin, hadvance⟩ := opened_of_startFile h
  have hopened := ContainerReader.keeps_begin.of_ok rfl hbegin
  have hmoved := ContainerReader.movesOn_advance.of_ok (.refl _) hadvance
  refine ⟨?_, fun hfound => ?_⟩
  · rw [hmoved.start_eq, hopened]
    rfl
  · subst hfound
    exact ContainerReader.done_of_advance hadvance

namespace Moment

def told (m : Moment α) : ℚ := m.reader.fractionConsumed ℚ

/-- The share of the file that is counted twice. -/
def surplus (m : Moment α) : ℚ := if m.overtaken then 1 / m.reader.files.length else 0

def passed (m : Moment α) : Nat := m.reader.files.length - m.reader.ahead.length

def share (m : Moment α) : ℚ :=
  match m.reader.reader? with
  | some reader => reader.fractionConsumed ℚ
  | none => 0

omit [RecordType α] in
theorem share_bounds (m : Moment α) : 0 ≤ m.share ∧ m.share ≤ 1 := by
  unfold share
  split
  · exact RangeTracker.fractionConsumed_bounds _
  · exact ⟨le_refl 0, zero_le_one⟩

omit [RecordType α] in
theorem told_eq {m : Moment α} (hcount : m.reader.files.length < 2 ^ 64) :
    m.told = if m.reader.done then 1 else (m.passed + m.share) / m.reader.files.length := by
  unfold told PatternReader.fractionConsumed
  split
  · rfl
  · by_cases hempty : m.reader.files = []
    · simp [hempty]
    · have hpassed : (UInt64.ofNat m.passed).toNat = m.passed := by
        rw [UInt64.toNat_ofNat', passed]
        omega
      have hall : (UInt64.ofNat m.reader.files.length).toNat = m.reader.files.length := by
        rw [UInt64.toNat_ofNat']
        omega
      rw [if_neg (by simpa using hempty)]
      change ((UInt64.ofNat m.passed).toNat + m.share : ℚ) /
        (UInt64.ofNat m.reader.files.length).toNat = _
      rw [hpassed, hall]

/-- No file can be opened before one that cannot. -/
def Barred (t : FileTree) (source : Source) (scanSize : UInt64) : Prop :=
  ∃ path ∈ (t.glob source.path).head?, ∃ e, startFile (α := α) t source scanSize path = .error e

/-- What is known of a reader that is in no call. -/
structure Rests (t : FileTree) (source : Source) (scanSize : UInt64) (m : Moment α)
    (answer? : Option (Except Error Bool)) : Prop where
  overtaken : m.overtaken = true → m.reader.ahead ≠ []
  fresh : m.reader.started = false →
    m.reader.reader? = none ∧ m.reader.files = [] ∧ m.reader.done = false
  unopened : m.reader.started = true → m.reader.done = false → m.reader.reader? = none →
    Barred (α := α) t source scanSize
  exhausted : answer? = some (.ok false) →
    m.reader.started = true ∧ (m.reader.done = true ∨ m.reader.reader? = none)

/-- A reader that has a file open rests with any answer but that there is no further record. -/
theorem rests_of_present {source : Source} {scanSize : UInt64} {m : Moment α}
    (hstarted : m.reader.started = true) (hpresent : m.reader.reader?.isSome)
    (hbehind : m.overtaken = true → m.reader.ahead ≠ []) {answer : Except Error Bool}
    (hanswer : answer ≠ .ok false) : m.Rests t source scanSize (some answer) where
  overtaken := hbehind
  fresh hfresh := by cases hstarted.symm.trans hfresh
  unopened _ _ hnone := by
    rw [hnone] at hpresent
    cases hpresent
  exhausted heq := absurd (Option.some.inj heq) hanswer

def AtHead (t : FileTree) (source : Source) (m : Moment α) : Prop :=
  m.overtaken = true ∨ m.reader.reader? = none ∧ m.reader.ahead = t.glob source.path

/-- What is known of a reader at each stage. -/
def Stands (t : FileTree) (source : Source) (scanSize : UInt64) (m : Moment α) : Stage α → Prop
  | .resting answer? => m.Rests t source scanSize answer?
  | .listed files => m.reader.started = true ∧ m.reader.done = false ∧
      m.reader.reader? = none ∧ m.reader.files = [] ∧ files = t.glob source.path
  | .opening => m.reader.started = true ∧ m.reader.done = false ∧ m.AtHead t source
  | .opened reader found => m.reader.started = true ∧ m.reader.done = false ∧
      (m.overtaken = true ∨ m.reader.reader? = none) ∧ m.reader.ahead ≠ [] ∧
      reader.blocks.tracker.start = 0 ∧ (found = false → reader.blocks.tracker.done = true)
  | .finishing => m.reader.started = true
  | .passing => m.reader.started = true ∧ m.reader.done = false ∧ m.reader.ahead ≠ [] ∧
      ∃ reader ∈ m.reader.reader?, reader.blocks.tracker.done = true

structure Sound (t : FileTree) (source : Source) (scanSize : UInt64) (m : Moment α) : Prop where
  reads : Reads source scanSize m.reader
  count : m.reader.files.length < 2 ^ 64
  ahead_le : m.reader.ahead.length ≤ m.reader.files.length
  starts : ∀ reader ∈ m.reader.reader?, reader.blocks.tracker.start = 0
  overtaken : m.overtaken = true → m.reader.done = false ∧
    ∃ reader ∈ m.reader.reader?, reader.blocks.tracker.done = true
  present : m.overtaken = false → m.reader.reader?.isSome → m.reader.ahead ≠ []
  stands : m.Stands t source scanSize m.stage

/-- What is told without the file that is counted twice. -/
def level (m : Moment α) : ℚ := m.told - m.surplus

namespace Sound

variable {source : Source} {scanSize : UInt64} {m : Moment α}

theorem stands_at (h : m.Sound t source scanSize) {stage : Stage α} (hstage : m.stage = stage) :
    m.Stands t source scanSize stage := hstage ▸ h.stands

theorem share_of_overtaken (h : m.Sound t source scanSize) (hovertaken : m.overtaken = true) :
    m.share = 1 := by
  obtain ⟨reader, hreader, hdone⟩ := (h.overtaken hovertaken).2
  rw [share, show m.reader.reader? = some reader from hreader]
  exact RangeTracker.fractionConsumed_of_done hdone

theorem level_of_done (h : m.Sound t source scanSize) (hdone : m.reader.done = true) :
    m.level = 1 := by
  have hnot : ¬m.overtaken = true := fun hovertaken => by
    have := (h.overtaken hovertaken).1
    simp [hdone] at this
  rw [level, told_eq h.count, if_pos hdone, surplus, if_neg hnot, sub_zero]

theorem level_of_overtaken (h : m.Sound t source scanSize) (hovertaken : m.overtaken = true) :
    m.level = m.passed / m.reader.files.length := by
  have hdone : ¬m.reader.done = true := Bool.eq_false_iff.1 (h.overtaken hovertaken).1
  rw [level, told_eq h.count, if_neg hdone, surplus, if_pos hovertaken,
    h.share_of_overtaken hovertaken, add_div, add_sub_cancel_right]

theorem level_of_present (h : m.Sound t source scanSize) (hdone : m.reader.done = false)
    (hovertaken : m.overtaken = false) :
    m.level = (m.passed + m.share) / m.reader.files.length := by
  rw [level, told_eq h.count, if_neg (Bool.eq_false_iff.1 hdone), surplus,
    if_neg (Bool.eq_false_iff.1 hovertaken), sub_zero]

/-- Before the reader of a file is installed only the files count that have been passed. -/
theorem level_of_behind (h : m.Sound t source scanSize) (hdone : m.reader.done = false)
    (hhead : m.overtaken = true ∨ m.reader.reader? = none) :
    m.level = m.passed / m.reader.files.length := by
  cases hovertaken : m.overtaken with
  | true => exact h.level_of_overtaken hovertaken
  | false =>
    have hnone : m.reader.reader? = none :=
      hhead.resolve_left fun htrue => by cases hovertaken.symm.trans htrue
    have hshare : m.share = 0 := by rw [share, hnone]
    rw [h.level_of_present hdone hovertaken, hshare, add_zero]

/-- Files that have been passed are none of those ahead. -/
theorem passed_lt (h : m.Sound t source scanSize) (hahead : m.reader.ahead ≠ []) :
    m.passed + 1 ≤ m.reader.files.length := by
  have hpos := List.length_pos_iff.2 hahead
  have := h.ahead_le
  unfold passed
  omega

/-- The level lies between the files that have been passed and the next one. -/
theorem level_between (h : m.Sound t source scanSize) (hdone : m.reader.done = false) :
    m.passed / m.reader.files.length ≤ m.level ∧
      m.level ≤ (m.passed + 1) / m.reader.files.length := by
  have hshare := m.share_bounds
  cases hovertaken : m.overtaken with
  | true =>
    rw [h.level_of_overtaken hovertaken]
    exact ⟨le_refl _, div_le_div_of_nonneg_right (by linarith) (Nat.cast_nonneg _)⟩
  | false =>
    rw [h.level_of_present hdone hovertaken]
    exact ⟨div_le_div_of_nonneg_right (by linarith) (Nat.cast_nonneg _),
      div_le_div_of_nonneg_right (by linarith) (Nat.cast_nonneg _)⟩

theorem level_bounds (h : m.Sound t source scanSize) : 0 ≤ m.level ∧ m.level ≤ 1 := by
  cases hdone : m.reader.done with
  | true =>
    rw [h.level_of_done hdone]
    exact ⟨zero_le_one, le_refl 1⟩
  | false =>
    have hpassed : (m.passed : ℚ) ≤ m.reader.files.length := Nat.cast_le.2 (Nat.sub_le _ _)
    have hall : (0 : ℚ) ≤ m.reader.files.length := Nat.cast_nonneg _
    refine ⟨le_trans (div_nonneg (Nat.cast_nonneg _) hall) (h.level_between hdone).1, ?_⟩
    by_cases hhead : m.overtaken = true ∨ m.reader.reader? = none
    · rw [h.level_of_behind hdone hhead]
      exact div_le_one_of_le₀ hpassed hall
    · obtain ⟨hovertaken, hreader⟩ := not_or.1 hhead
      have hahead :=
        h.present (Bool.eq_false_iff.2 hovertaken) (Option.isSome_iff_ne_none.2 hreader)
      refine le_trans (h.level_between hdone).2 (div_le_one_of_le₀ ?_ hall)
      exact_mod_cast h.passed_lt hahead

structure Onward (t : FileTree) (source : Source) (scanSize : UInt64) (m m' : Moment α) : Prop where
  sound : m'.Sound t source scanSize
  level_le : m.level ≤ m'.level

/-- A step that leaves the reader as it is. -/
theorem staged (h : m.Sound t source scanSize) {stage : Stage α}
    (hstands : ({ m with stage } : Moment α).Stands t source scanSize stage) :
    Onward t source scanSize m { m with stage } where
  sound := ⟨h.reads, h.count, h.ahead_le, h.starts, h.overtaken, h.present, hstands⟩
  level_le := le_refl _

/-- A step behind the first file ahead, whose reader may still be installed. -/
theorem overtakes (h : m.Sound t source scanSize) (hstarted : m.reader.started = true)
    (hdone : m.reader.done = false) (hahead : m.reader.ahead ≠ [])
    {reader? : Option (ContainerReader α)}
    (hstarts : ∀ reader ∈ reader?, reader.blocks.tracker.start = 0)
    (hpassed : ∃ reader ∈ reader?, reader.blocks.tracker.done = true) :
    Onward t source scanSize m
      { reader := { m.reader with reader?, ahead := m.reader.ahead.tail }
        stage := .opening, overtaken := true } := by
  have hpassed_lt := h.passed_lt hahead
  have hpos := List.length_pos_iff.2 hahead
  have htail : m.reader.ahead.tail.length = m.reader.ahead.length - 1 := List.length_tail
  let m' : Moment α :=
    { reader := { m.reader with reader?, ahead := m.reader.ahead.tail }
      stage := .opening, overtaken := true }
  have hsound : m'.Sound t source scanSize := by
    refine ⟨h.reads, h.count, ?_, hstarts, fun _ => ⟨hdone, hpassed⟩, by simp [m'],
      hstarted, hdone, .inl rfl⟩
    exact htail ▸ le_trans (Nat.sub_le _ _) h.ahead_le
  have hnext : m'.passed = m.passed + 1 := by
    have hless := h.ahead_le
    change m.reader.files.length - m.reader.ahead.tail.length = m.passed + 1
    unfold passed
    omega
  refine ⟨hsound, le_trans (h.level_between hdone).2 ?_⟩
  rw [hsound.level_of_overtaken rfl, hnext, Nat.cast_succ]

/-- A step of the reader of the present file. -/
theorem moves (h : m.Sound t source scanSize) (hdone : m.reader.done = false)
    {reader reader' : ContainerReader α} (hreader : m.reader.reader? = some reader)
    (hmoved : reader.blocks.tracker.MovesOn reader'.blocks.tracker) {stage : Stage α}
    (hstands : ({ m.withReader reader' with stage } : Moment α).Stands t source scanSize stage) :
    Onward t source scanSize m { m.withReader reader' with stage } := by
  have hstart := h.starts reader hreader
  have hsound : ({ m.withReader reader' with stage } : Moment α).Sound t source scanSize := by
    refine ⟨h.reads, h.count, h.ahead_le, ?_, fun hovertaken => ⟨hdone, reader', rfl, ?_⟩,
      fun hnot _ => h.present hnot (by rw [hreader]; rfl), hstands⟩
    · rintro _ ⟨⟩
      exact hmoved.start_eq.trans hstart
    · obtain ⟨-, _, hsame, hover⟩ := h.overtaken hovertaken
      cases hreader.symm.trans hsame
      exact hmoved.done hover
  refine ⟨hsound, ?_⟩
  cases hovertaken : m.overtaken with
  | true =>
    rw [h.level_of_overtaken hovertaken, hsound.level_of_overtaken hovertaken]
    exact le_refl _
  | false =>
    have hshare : m.share ≤ ({ m.withReader reader' with stage } : Moment α).share := by
      rw [share, hreader]
      exact hmoved.fraction_le fun last _ => hstart ▸ UInt64.zero_le
    rw [h.level_of_present hdone hovertaken, hsound.level_of_present hdone hovertaken]
    exact div_le_div_of_nonneg_right (add_le_add_right hshare _) (Nat.cast_nonneg _)

theorem listed (h : m.Sound t source scanSize) {files : List Bytes}
    (hcount : (t.glob source.path).length < 2 ^ 64) (hstage : m.stage = .listed files) :
    Onward t source scanSize m (m.goOn t) := by
  obtain ⟨hstarted, hdone, hreader, hfiles, rfl⟩ := h.stands_at hstage
  have hsound : (m.goOn t).Sound t source scanSize := by
    rw [goOn, hstage]
    refine ⟨h.reads, hcount, le_refl _, h.starts, h.overtaken, ?_,
      hstarted, hdone, .inr ⟨hreader, rfl⟩⟩
    intro _ hsome
    rw [hreader] at hsome
    cases hsome
  refine ⟨hsound, le_trans (h.level_between hdone).2 ?_⟩
  rw [hfiles, List.length_nil, Nat.cast_zero, div_zero]
  exact hsound.level_bounds.1

theorem opening (h : m.Sound t source scanSize) (hstage : m.stage = .opening) :
    Onward t source scanSize m (m.goOn t) := by
  obtain ⟨hstarted, hdone, hhead⟩ := h.stands_at hstage
  cases hahead : m.reader.ahead with
  | nil =>
    have hgoOn : m.goOn t = { m with stage := .finishing } := by
      simp only [goOn, hstage, hahead]
    rw [hgoOn]
    exact h.staged hstarted
  | cons path rest =>
    have hne : m.reader.ahead ≠ [] := by rw [hahead]; exact List.cons_ne_nil _ _
    cases hfile : startFile (α := α) t m.reader.source m.reader.scanSize path with
    | error e =>
      have hgoOn : m.goOn t = m.answered (.error e) := by
        simp only [goOn, hstage, hahead, hfile]
      rw [hgoOn]
      refine h.staged ⟨fun _ => hne, fun hfresh => ?_, fun _ _ hnone => ?_, fun heq => by cases heq⟩
      · cases hstarted.symm.trans hfresh
      · rcases hhead with hovertaken | ⟨-, hglob⟩
        · obtain ⟨-, reader, hreader, -⟩ := h.overtaken hovertaken
          cases hnone.symm.trans hreader
        · rw [h.reads.1, h.reads.2] at hfile
          exact ⟨path, by rw [← hglob, hahead]; rfl, e, hfile⟩
    | ok opened =>
      obtain ⟨reader, found⟩ := opened
      have hgoOn : m.goOn t = { m with stage := .opened reader found } := by
        simp only [goOn, hstage, hahead, hfile]
      obtain ⟨hstart, hfound⟩ := tracker_of_startFile hfile
      rw [hgoOn]
      exact h.staged ⟨hstarted, hdone, hhead.imp_right And.left, hne, hstart, hfound⟩

theorem opened (h : m.Sound t source scanSize) {reader : ContainerReader α} {found : Bool}
    (hstage : m.stage = .opened reader found) : Onward t source scanSize m (m.goOn t) := by
  obtain ⟨hstarted, hdone, hhead, hahead, hstart, hfound⟩ := h.stands_at hstage
  cases found with
  | true =>
    let m' : Moment α :=
      { reader := { m.reader with reader? := some reader }, stage := .resting (some (.ok true)) }
    have hgoOn : m.goOn t = m' := by
      rw [goOn, hstage]
      rfl
    have hrests : m'.Rests t source scanSize (some (.ok true)) :=
      rests_of_present (m := m') hstarted rfl (fun _ => hahead) (by simp)
    have hsound : m'.Sound t source scanSize := by
      refine ⟨h.reads, h.count, h.ahead_le, ?_, by simp [m'], fun _ _ => hahead, hrests⟩
      rintro _ ⟨⟩
      exact hstart
    rw [hgoOn]
    refine ⟨hsound, ?_⟩
    rw [h.level_of_behind hdone hhead]
    exact (hsound.level_between hdone).1
  | false =>
    have hgoOn : m.goOn t =
        { reader := { m.reader with reader? := some reader, ahead := m.reader.ahead.tail }
          stage := .opening, overtaken := true } := by
      rw [goOn, hstage]
      rfl
    rw [hgoOn]
    refine h.overtakes hstarted hdone hahead ?_ ⟨reader, rfl, hfound rfl⟩
    rintro _ ⟨⟩
    exact hstart

theorem finishing (h : m.Sound t source scanSize) (hstage : m.stage = .finishing) :
    Onward t source scanSize m (m.goOn t) := by
  have hstarted := h.stands_at hstage
  let m' : Moment α := { reader := finish m.reader, stage := .resting (some (.ok false)) }
  have hgoOn : m.goOn t = m' := by
    rw [goOn, hstage]
  have hnone (reader : ContainerReader α) : reader ∉ m'.reader.reader? := Option.not_mem_none reader
  have hrests : m'.Rests t source scanSize (some (.ok false)) := by
    refine ⟨fun hnot => ?_, fun hfresh => ?_, fun _ hnot => ?_, fun _ => ⟨hstarted, .inl rfl⟩⟩
    · cases hnot
    · cases hstarted.symm.trans hfresh
    · cases hnot
  have hsound : m'.Sound t source scanSize := by
    refine ⟨h.reads, h.count, h.ahead_le, fun reader hin => absurd hin (hnone reader),
      fun hnot => ?_, fun _ hsome => ?_, hrests⟩
    · cases hnot
    · cases hsome
  rw [hgoOn]
  refine ⟨hsound, ?_⟩
  rw [hsound.level_of_done rfl]
  exact h.level_bounds.2

theorem passing (h : m.Sound t source scanSize) (hstage : m.stage = .passing) :
    Onward t source scanSize m (m.goOn t) := by
  obtain ⟨hstarted, hdone, hahead, hpassed⟩ := h.stands_at hstage
  have hgoOn : m.goOn t =
      { reader := { m.reader with ahead := m.reader.ahead.tail }
        stage := .opening, overtaken := true } := by
    rw [goOn, hstage]
    rfl
  rw [hgoOn]
  exact h.overtakes hstarted hdone hahead h.starts hpassed

theorem rests (h : m.Sound t source scanSize)
    {answer? : Option (Except Error Bool)} (hstage : m.stage = .resting answer?) :
    m.Rests t source scanSize answer? :=
  h.stands_at hstage

/-- An answer that leaves the reader as it is. -/
theorem answered (h : m.Sound t source scanSize) {answer? : Option (Except Error Bool)}
    (hstage : m.stage = .resting answer?) {answer : Except Error Bool}
    (hanswer : answer = .ok false →
      m.reader.started = true ∧ (m.reader.done = true ∨ m.reader.reader? = none)) :
    Onward t source scanSize m (m.answered answer) := by
  obtain ⟨hovertaken, hfresh, hunopened, -⟩ := h.rests hstage
  refine h.staged ⟨hovertaken, hfresh, hunopened, fun heq => hanswer ?_⟩
  injection heq

theorem start (h : m.Sound t source scanSize) {answer? : Option (Except Error Bool)}
    (hstage : m.stage = .resting answer?) : Onward t source scanSize m (m.call t .start) := by
  by_cases hstarted : m.reader.started = true
  · rw [call, if_pos hstarted]
    exact h.answered hstage fun heq => by cases heq
  · obtain ⟨hreader, hfiles, hdone⟩ := (h.rests hstage).fresh (Bool.eq_false_iff.2 hstarted)
    rw [call, if_neg hstarted]
    refine ⟨⟨h.reads, h.count, h.ahead_le, h.starts, h.overtaken, h.present,
      rfl, hdone, hreader, hfiles, ?_⟩, le_refl _⟩
    exact congrArg (fun s => t.glob s.path) h.reads.1

theorem advance (h : m.Sound t source scanSize) {answer? : Option (Except Error Bool)}
    (hstage : m.stage = .resting answer?) : Onward t source scanSize m (m.call t .advance) := by
  by_cases hstarted : m.reader.started = true
  · rcases m.reader.over_or_open with hover | ⟨hdone, reader, hreader⟩
    · rw [call_advance_over hstarted hover]
      exact h.answered hstage fun _ => ⟨hstarted, hover.imp_right Option.isNone_iff_eq_none.1⟩
    · have hbehind := (h.rests hstage).overtaken
      have hrests (reader' : ContainerReader α) {answer : Except Error Bool}
          (hanswer : answer ≠ .ok false) :
          ((m.withReader reader').answered answer).Rests t source scanSize (some answer) :=
        rests_of_present (m := (m.withReader reader').answered answer) hstarted rfl hbehind hanswer
      have hmoves := ContainerReader.movesOn_advance (.refl reader.blocks.tracker)
      rw [call_advance_reader hstarted hdone hreader]
      cases hrun : ContainerReader.advance reader with
      | error e reader' =>
        rw [Runs.after_of_error hrun] at hmoves
        exact h.moves hdone hreader hmoves (hrests reader' (by simp))
      | ok found reader' =>
        rw [Runs.after_of_ok hrun] at hmoves
        cases found with
        | true => exact h.moves hdone hreader hmoves (hrests reader' (by simp))
        | false =>
          refine h.moves hdone hreader hmoves ⟨hstarted, hdone, ?_, reader', rfl, ?_⟩
          · cases hovertaken : m.overtaken with
            | true => exact hbehind hovertaken
            | false => exact h.present hovertaken (by rw [hreader]; rfl)
          · exact ContainerReader.done_of_advance hrun
  · have hfresh : m.reader.started = false := Bool.eq_false_iff.2 hstarted
    simp only [call, hfresh, Bool.not_false, if_true]
    exact h.answered hstage fun heq => by cases heq

theorem step (h : m.Sound t source scanSize) (hcount : (t.glob source.path).length < 2 ^ 64)
    (e : Event) : Onward t source scanSize m (m.step t e) := by
  cases e with
  | call c =>
    cases hstage : m.stage with
    | resting answer? =>
      simp only [Moment.step, hstage]
      cases c with
      | start => exact h.start hstage
      | advance => exact h.advance hstage
    | listed | opening | opened | finishing | passing =>
      simp only [Moment.step, hstage]
      exact ⟨h, le_refl _⟩
  | goOn =>
    rw [Moment.step]
    cases hstage : m.stage with
    | resting answer? =>
      rw [goOn, hstage]
      exact ⟨h, le_refl _⟩
    | listed files => exact h.listed hcount hstage
    | opening => exact h.opening hstage
    | opened reader found => exact h.opened hstage
    | finishing => exact h.finishing hstage
    | passing => exact h.passing hstage

theorem after (h : m.Sound t source scanSize) (hcount : (t.glob source.path).length < 2 ^ 64)
    (events : List Event) : Onward t source scanSize m (m.after t events) := by
  induction events generalizing m with
  | nil => exact ⟨h, le_refl _⟩
  | cons e rest ih =>
    obtain ⟨hsound, hle⟩ := h.step hcount e
    obtain ⟨hsound', hle'⟩ := ih hsound
    exact ⟨hsound', le_trans hle hle'⟩

theorem created (t : FileTree) (source : Source) (scanSize : UInt64) :
    ({ reader := create source scanSize } : Moment α).Sound t source scanSize := by
  have hrests : ({ reader := create source scanSize } : Moment α).Rests t source scanSize none := by
    refine ⟨fun hnot => ?_, fun _ => ⟨rfl, rfl, rfl⟩, fun hnot => ?_, by simp⟩
    · cases hnot
    · cases hnot
  refine ⟨⟨rfl, rfl⟩, Nat.two_pow_pos 64, le_refl _, fun reader hin => ?_, fun hnot => ?_,
    fun _ hsome => ?_, hrests⟩
  · exact absurd hin (Option.not_mem_none reader)
  · cases hnot
  · cases hsome

end Sound

omit [RecordType α] in
theorem stage_of_exhausted {m : Moment α} (h : m.exhausted = true) :
    m.stage = .resting (some (.ok false)) := by
  unfold exhausted at h
  split at h
  · assumption
  · cases h

/-- The level that is told, without the file that is counted twice while its reader is installed
though it has been passed, lies between zero and one and never falls. All is told to be read once
the reader is exhausted, unless the first file of the pattern cannot be opened. -/
theorem level_of_events {source : Source} (scanSize : UInt64)
    (hcount : (t.glob source.path).length < 2 ^ 64) (events later : List Event) :
    let m : Moment α := ({ reader := create source scanSize } : Moment α).after t events
    let m' := m.after t later
    (0 ≤ m.told - m.surplus ∧ m.told - m.surplus ≤ 1) ∧
      m.told - m.surplus ≤ m'.told - m'.surplus ∧
      (m.exhausted = true →
        (∀ path ∈ (t.glob source.path).head?, ∃ opened,
          startFile (α := α) t source scanSize path = .ok opened) → m.told = 1) := by
  intro m m'
  have hsound := ((Sound.created (α := α) t source scanSize).after hcount events).sound
  refine ⟨hsound.level_bounds, (hsound.after hcount later).level_le, fun hend hopens => ?_⟩
  have hrests := hsound.rests (stage_of_exhausted hend)
  obtain ⟨hstarted, hover⟩ := hrests.exhausted rfl
  cases hdone : m.reader.done with
  | true =>
    rw [told_eq hsound.count, if_pos hdone]
  | false =>
    have hnone := hover.resolve_left (Bool.eq_false_iff.1 hdone)
    obtain ⟨path, hpath, e, hfails⟩ := hrests.unopened hstarted hdone hnone
    obtain ⟨opened, hopened⟩ := hopens path hpath
    cases hfails.symm.trans hopened

def coop : FileTree where
  entries := [(["a"], .file 0 Source.nest.content)]
  made := 1

theorem glob_coop : coop.glob "?" = [("a" : Bytes)] :=
  FileTree.glob_of_expand (by decide +kernel) (by decide)

theorem after_start {source : Source} {scanSize : UInt64} {files : List Bytes}
    (hglob : t.glob source.path = files) (events : List Event) :
    ({ reader := create source scanSize } : Moment α).after t (.call .start :: .goOn :: events) =
      ({ reader := { (create source scanSize : PatternReader α) with
          started := true, files, ahead := files }
         stage := .opening } : Moment α).after t events := by
  subst hglob
  rfl

/-- The whole of the file is told in the end. -/
theorem level_of_coop :
    let source := Source.ofPattern "?"
    let events : List Event := [.call .start, .goOn, .goOn, .goOn, .goOn, .goOn]
    let m : Moment Bird := ({ reader := create source 4096 } : Moment Bird).after coop events
    (coop.glob source.path).length < 2 ^ 64 ∧ m.exhausted = true ∧ m.told = 1 := by
  intro source events m
  have hglob : coop.glob source.path = [("a" : Bytes)] := glob_coop
  have hcount : (coop.glob source.path).length < 2 ^ 64 := by
    rw [hglob]
    decide
  have hopens : ∀ path ∈ (coop.glob source.path).head?, ∃ opened,
      startFile (α := Bird) coop source 4096 path = .ok opened := by
    have hreadable : coop.Readable source.binding "a" (Source.nest.container Source.nest_sound) :=
      ⟨⟨0, rfl⟩, by decide +kernel, rfl⟩
    obtain ⟨reader, found, hstart, -⟩ := startFile_of_readable hreadable 4096
    rw [hglob]
    rintro _ ⟨⟩
    exact ⟨_, hstart⟩
  have hend : m.exhausted = true := by
    have hm : m = _ := after_start hglob _
    rw [hm]
    decide +kernel
  have hlevel := level_of_events (α := Bird) 4096 hcount events []
  obtain ⟨-, -, htold⟩ := hlevel
  exact ⟨hcount, hend, htold hend hopens⟩

/-- A file is counted twice as it is passed, and where the first file cannot be opened nothing is
told to be read in the end. -/
theorem counted_twice :
    let source := Source.ofPattern "?"
    (∃ events later : List Event,
      let m : Moment Bird := ({ reader := create source 4096 } : Moment Bird).after coop events
      m.told = 2 ∧ (m.after coop later).told = 1) ∧
    ∃ events : List Event,
      let m : Moment Bird := ({ reader := create source 4096 } : Moment Bird).after shed events
      m.exhausted = true ∧ m.told = 0 := by
  intro source
  have hshed : shed.glob source.path = [("a" : Bytes), "b"] :=
    FileTree.glob_of_expand (by decide +kernel) (by decide)
  refine ⟨⟨[.call .start, .goOn, .goOn, .goOn], [.goOn, .goOn], ?_⟩,
    [.call .start, .goOn, .goOn, .call .advance], ?_⟩
  · rw [after_start glob_coop]
    constructor
    · decide +kernel
    · decide +kernel
  · rw [after_start hshed]
    constructor
    · decide +kernel
    · decide +kernel

end Moment
end PatternReader
end BlockContainer
