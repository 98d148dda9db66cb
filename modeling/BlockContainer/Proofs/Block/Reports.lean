import BlockContainer.Proofs.Range.Progress
import BlockContainer.Proofs.Reader.Calls

/-! # What a reader reports

A reader that has opened its file reports no record before the start of its range, also after
reads that have failed and left the stream anywhere in the file. For the offset of the next block
grows by what is read from the file, which is no more than the file has. So the progress of the
reader never falls.
-/
namespace BlockContainer

namespace InputStream

structure Inside (content : Bytes) (s : InputStream) : Prop where
  at_clear : At .file content s.position s.clear
  position_le : s.position ≤ content.length

variable {content : Bytes} {s : InputStream} {n : Nat}

theorem Inside.fail (h : Inside content s) : Inside content s.fail :=
  ⟨h.at_clear, h.position_le⟩

theorem Inside.move (h : Inside content s) (hn : n ≤ s.available.length) :
    Inside content (s.move n) where
  at_clear := h.at_clear.move n
  position_le := by
    have havailable : s.available.length ≤ s.rest.length := by
      unfold available
      split
      · exact Nat.zero_le _
      · exact Nat.le_refl _
    have hrest : s.rest = content.drop s.position := h.at_clear.rest_eq
    have hposition := h.position_le
    rw [hrest, List.length_drop] at havailable
    change s.position + n ≤ content.length
    omega

theorem keeps_inside_readLong : Runs.Keeps (Inside content) readLong := by
  intro s hs
  unfold Runs.after readLong
  cases hscan : Varint.scan s.available with
  | complete word n => exact hs.move (Varint.scan_complete hscan).2
  | truncated n => exact (hs.move (Varint.length_of_truncated hscan).le).fail
  | overlong => exact hs.move (Varint.maxBytes_le_of_overlong hscan)

theorem keeps_inside_readExactly (n : Nat) (otherwise : FormatError) :
    Runs.Keeps (Inside content) (readExactly n otherwise) := by
  intro s hs
  have hread : Inside content (s.read n).2 := by
    have hmove := hs.move (n := (s.available.take n).length) (List.length_take_le' _ _)
    simp only [read]
    split
    · exact hmove.fail
    · exact hmove
  have hafter : Runs.after (readExactly n otherwise) s = (s.read n).2 := by
    unfold Runs.after readExactly
    by_cases hfull : (s.read n).1.length = n <;> simp [hfull]
  rwa [hafter]

end InputStream

namespace Block

open InputStream

variable {content : Bytes}

theorem keeps_inside_readFraming (remaining : Nat) :
    Runs.Keeps (Inside content) (readFraming remaining) := by
  unfold readFraming
  refine .bind (fun _ h => h) fun _ => .bind keeps_inside_readLong fun _ => ?_
  refine .bind keeps_inside_readLong fun _ => .bind (.ensure _ _) fun _ => ?_
  exact .bind (fun _ h => h) fun _ => .bind (.ensure _ _) fun _ => .pure _

theorem keeps_inside_readBody (marker : SyncMarker) (framing : Framing) :
    Runs.Keeps (Inside content) (readBody marker framing) := by
  unfold readBody
  refine .bind (keeps_inside_readExactly _ _) fun _ => ?_
  exact .bind (keeps_inside_readExactly _ _) fun _ => .bind (.ensure _ _) fun _ => .pure _

end Block

namespace BlockReader

variable {content : Bytes} {t : FileTree} {r r' : BlockReader} {start : UInt64}
  {origin : RangeTracker}

/-- The reader has opened a file with this content. From the origin on its tracker has been told
of no record before the start, and none is there to come. -/
structure Underway (content : Bytes) (start : UInt64) (origin : RangeTracker) (r : BlockReader) :
    Prop where
  isOpen : r.isOpen = true
  fileSize_eq : r.fileSize.toNat = content.length
  told : ∃ calls, (∀ c ∈ calls, RangeTracker.Call.From start c) ∧ r.tracker = origin.after calls
  stands : r.nextBlockStart < r.fileSize →
    start ≤ r.nextBlockStart ∧ InputStream.Inside content r.stream

/-- From here on the tracker is told of no record before `low`. -/
theorem Underway.from (h : Underway content start origin r) {low : UInt64}
    (hlow : r.nextBlockStart < r.fileSize → low ≤ r.nextBlockStart) :
    Underway content low r.tracker r where
  isOpen := h.isOpen
  fileSize_eq := h.fileSize_eq
  told := ⟨[], by simp, rfl⟩
  stands hinside := ⟨hlow hinside, (h.stands hinside).2⟩

theorem Underway.perform (h : Underway content start origin r) {c : RangeTracker.Call}
    (hfrom : c.From start) :
    Underway content start origin { r with tracker := (r.tracker.perform c).2 } where
  isOpen := h.isOpen
  fileSize_eq := h.fileSize_eq
  told := by
    obtain ⟨calls, hcalls, htracker⟩ := h.told
    refine ⟨calls ++ [c], ?_, ?_⟩
    · rw [List.forall_mem_append, List.forall_mem_singleton]
      exact ⟨hcalls, hfrom⟩
    · rw [RangeTracker.after_append, htracker]
      rfl
  stands := h.stands

theorem Underway.approach (h : Underway content start origin r) :
    Underway content start origin (Runs.after approach r) := by
  unfold Runs.after
  rw [approach_asks h.isOpen]
  cases hasks : r.asks? with
  | none => exact h.perform (c := .markDone) trivial
  | some offset =>
    obtain ⟨hinside, rfl⟩ := asks_eq_some.1 hasks
    change Underway content start origin (Runs.after (focus _ _ _ _) r)
    rw [Runs.after_focus, after_tryReturn]
    exact h.perform (h.stands hinside).1

/-- The part of a block that is read stays in the file. -/
theorem Underway.onStream {β : Type} {m : Reading β} (h : Underway content start origin r)
    (hinside : r.nextBlockStart < r.fileSize) (hm : Runs.Keeps (InputStream.Inside content) m)
    {s : InputStream} (hrun : Runs.after m r.stream = s) (recordCount : Int64) :
    Underway content start origin { r with stream? := some s, recordCount } where
  isOpen := rfl
  fileSize_eq := h.fileSize_eq
  told := h.told
  stands _ := ⟨(h.stands hinside).1, hrun ▸ hm (h.stands hinside).2⟩

theorem Underway.readBlock (h : Underway content start origin r)
    (hlength : content.length < 2 ^ 63) (hinside : r.nextBlockStart < r.fileSize) :
    Underway content start origin (Runs.after readBlock r) := by
  have hframing : Runs.Keeps (InputStream.Inside content) (Block.readFraming _) :=
    Block.keeps_inside_readFraming (r.fileSize - r.nextBlockStart).toNat
  unfold Runs.after BlockReader.readBlock
  rw [Runs.get_bind]
  cases hfirst : Block.readFraming (r.fileSize - r.nextBlockStart).toNat r.stream with
  | error e s =>
    have hrun : BlockReader.onStream .format (Block.readFraming _) r = .error (.format e) _ :=
      Runs.focus_of_error hfirst
    rw [Runs.bind_of_error hrun]
    exact h.onStream hinside hframing (Runs.after_of_error hfirst) r.recordCount
  | ok framing s =>
    have hrun : BlockReader.onStream .format (Block.readFraming _) r = .ok framing _ :=
      Runs.focus_of_ok hfirst
    rw [Runs.bind_of_ok hrun, Runs.modify_bind]
    have hframed := h.onStream hinside hframing (Runs.after_of_ok hfirst) framing.count
    have hbody : Runs.Keeps (InputStream.Inside content) (Block.readBody _ _) :=
      Block.keeps_inside_readBody r.header.marker framing
    cases hsecond : Block.readBody r.header.marker framing s with
    | error e s' =>
      have hrun : BlockReader.onStream .format (Block.readBody r.header.marker framing)
          { r with stream? := some s, recordCount := framing.count } = .error (.format e) _ :=
        Runs.focus_of_error hsecond
      rw [Runs.bind_of_error hrun]
      exact hframed.onStream hinside hbody (Runs.after_of_error hsecond) framing.count
    | ok payload s' =>
      have hbehind := hframed.onStream hinside hbody (Runs.after_of_ok hsecond) framing.count
      obtain ⟨hstart, hstands⟩ := hbehind.stands hinside
      have hposition : s'.position ≤ content.length := hstands.position_le
      have hpassed : s'.position - r.stream.position ≤ content.length :=
        Nat.le_trans (Nat.sub_le _ _) hposition
      have hle : r.nextBlockStart ≤
          r.nextBlockStart + UInt64.ofNat (s'.position - r.stream.position) := by
        have hlt := UInt64.lt_iff_toNat_lt.1 hinside
        rw [h.fileSize_eq] at hlt
        rw [UInt64.le_iff_toNat_le, UInt64.toNat_add, UInt64.toNat_ofNat']
        omega
      have hrun : BlockReader.onStream .format (Block.readBody r.header.marker framing)
          { r with stream? := some s, recordCount := framing.count } = .ok payload _ :=
        Runs.focus_of_ok hsecond
      rw [Runs.bind_of_ok hrun, Runs.modify_bind]
      exact ⟨rfl, h.fileSize_eq, h.told, fun _ => ⟨UInt64.le_trans hstart hle, hstands⟩⟩

theorem keeps_underway_unpack (b : Block) : Runs.Keeps (Underway content start origin) (unpack b) :=
  keeps_unpack (fun _ _ h => ⟨h.isOpen, h.fileSize_eq, h.told, h.stands⟩) b

theorem Underway.inside_of_granted (h : Underway content start origin r)
    (hrun : BlockReader.approach r = .ok true r') : r'.nextBlockStart < r'.fileSize := by
  rw [approach_asks h.isOpen] at hrun
  cases hasks : r.asks? with
  | none =>
    rw [hasks] at hrun
    cases hrun
  | some offset =>
    rw [hasks] at hrun
    obtain ⟨tracker, -, rfl⟩ := focus_eq_ok_iff.1 hrun
    exact (asks_eq_some.1 hasks).1

theorem Underway.readNext (h : Underway content start origin r)
    (hlength : content.length < 2 ^ 63) :
    Underway content start origin (Runs.after readNext r) := by
  have hblock {r r₁ : BlockReader} (h : Underway content start origin r)
      (hrun : BlockReader.approach r = .ok true r₁) :
      Underway content start origin (Runs.after BlockReader.readBlock r₁) :=
    (Runs.after_of_ok hrun ▸ h.approach).readBlock hlength (h.inside_of_granted hrun)
  unfold Runs.after
  fun_induction BlockReader.readNext r with
  | case1 r e r' hrun => exact Runs.after_of_error hrun ▸ h.approach
  | case2 r r' hrun => exact Runs.after_of_ok hrun ▸ h.approach
  | case3 r r₁ hrun e r' hread => exact Runs.after_of_error hread ▸ hblock h hrun
  | case4 r r₁ hrun b r₂ hread hcount ih => exact ih (Runs.after_of_ok hread ▸ hblock h hrun)
  | case5 r r₁ hrun b r₂ hread hcount e r' hlast =>
    exact (keeps_underway_unpack b).of_error (Runs.after_of_ok hread ▸ hblock h hrun) hlast
  | case6 r r₁ hrun b r₂ hread hcount r' hlast =>
    exact (keeps_underway_unpack b).of_ok (Runs.after_of_ok hread ▸ hblock h hrun) hlast

inductive Request where
  | readNext
  | split (fraction : UInt64)
deriving DecidableEq, Repr

def serve (r : BlockReader) : Request → BlockReader
  | .readNext => Runs.after BlockReader.readNext r
  | .split fraction => (r.trySplit fraction).2

def serveAll (r : BlockReader) (requests : List Request) : BlockReader := requests.foldl serve r

theorem Underway.serve (h : Underway content start origin r) (hlength : content.length < 2 ^ 63)
    (request : Request) : Underway content start origin (r.serve request) := by
  cases request with
  | readNext => exact h.readNext hlength
  | split fraction => exact h.perform (c := .split fraction) trivial

theorem Underway.serveAll (h : Underway content start origin r) (hlength : content.length < 2 ^ 63)
    (requests : List Request) : Underway content start origin (r.serveAll requests) := by
  induction requests generalizing r with
  | nil => exact h
  | cons request rest ih => exact ih (h.serve hlength request)

/-- A reader that has just opened its file. -/
theorem underway_of_afloat (h : Afloat content r) (hlength : content.length < 2 ^ 63)
    (hstart : r.tracker.start = start) (htold : ∃ calls,
      (∀ c ∈ calls, RangeTracker.Call.From start c) ∧ r.tracker = origin.after calls) :
    Underway content start origin r where
  isOpen := h.isOpen
  fileSize_eq := h.toNat_fileSize hlength
  told := htold
  stands hinside := by
    obtain ⟨hle, s, hstream, hat⟩ := h.stands hinside
    have hlt := UInt64.lt_iff_toNat_lt.1 hinside
    rw [h.toNat_fileSize hlength, ← hat.position_eq] at hlt
    rw [hstart] at hle
    rw [stream, hstream, Option.getD_some]
    refine ⟨hle, ?_, Nat.le_of_lt hlt⟩
    rw [hat.position_eq]
    exact (InputStream.Near.of_at hat).at_clear

/-- Splits before the file is opened. -/
theorem Ashore.serveAll (h : Ashore content t r) (fractions : List UInt64) :
    Ashore content t (r.serveAll (fractions.map .split)) ∧
      (r.serveAll (fractions.map .split)).scanSize = r.scanSize ∧
      (r.serveAll (fractions.map .split)).tracker = r.tracker.after (fractions.map .split) := by
  induction fractions generalizing r with
  | nil => exact ⟨h, rfl, rfl⟩
  | cons fraction rest ih =>
    have hlast : (r.trySplit fraction).2.tracker.last? = none := by
      change (r.tracker.trySplit fraction).2.last? = none
      rcases RangeTracker.trySplit_cases fraction r.tracker with hnone | ⟨cut, hcut, -⟩
      · rw [hnone]
        exact h.last_none
      · rw [hcut]
        exact h.last_none
    exact ih (r := (r.trySplit fraction).2)
      ⟨h.entry, h.fileSize_eq, h.stream_none, h.header_none, hlast⟩

/-- What is told of the progress of a reader that was opened, behind its requests. -/
structure Progresses (start : UInt64) (origin : RangeTracker) (opened : BlockReader)
    (requests : List Request) : Prop where
  told : ∃ calls, (∀ c ∈ calls, RangeTracker.Call.From start c) ∧
    (opened.serveAll requests).tracker = origin.after calls ∧ origin.Progresses calls
  never_falls : ∀ later, (opened.serveAll requests).tracker.fractionConsumed ℚ ≤
    (opened.serveAll (requests ++ later)).tracker.fractionConsumed ℚ

theorem Underway.progresses (h : Underway content start origin r)
    (hlength : content.length < 2 ^ 63) {stop : UInt64}
    (hcreate : RangeTracker.create start stop = .ok origin) (requests : List Request) :
    Progresses start origin r requests := by
  have hserved := h.serveAll hlength requests
  obtain ⟨calls, hfrom, htracker⟩ := hserved.told
  have hprogresses := RangeTracker.progresses_of_create hcreate hfrom
  refine ⟨⟨calls, hfrom, htracker, hprogresses⟩, fun later => ?_⟩
  have hagain := hserved.from fun hinside => (hserved.stands hinside).1
  obtain ⟨more, -, hmore⟩ := (hagain.serveAll hlength later).told
  have hlater : (r.serveAll (requests ++ later)).tracker = origin.after (calls ++ more) := by
    rw [BlockReader.serveAll, List.foldl_append, RangeTracker.after_append, ← htracker]
    exact hmore
  rw [htracker, hlater]
  exact hprogresses.never_falls more

/-- However the reader is split before it opens its file, and split and read from behind that. -/
theorem Ashore.progresses (h : Ashore content t r) (hlength : content.length < 2 ^ 63)
    (hscan : 0 < r.scanSize) {stop : UInt64}
    (hcreate : RangeTracker.create start stop = .ok r.tracker) {fractions : List UInt64}
    {opened : BlockReader} (hopen : openFile t (r.serveAll (fractions.map .split)) = .ok () opened)
    (requests : List Request) : Progresses start r.tracker opened requests := by
  obtain ⟨hashore, hsize, htracker⟩ := h.serveAll fractions
  rw [← hsize] at hscan
  obtain ⟨hafloat, hsame⟩ := (openFile_ashore hashore hlength hscan).leads hopen
  rw [htracker] at hsame
  have hstart : opened.tracker.start = start := by
    rw [hsame, RangeTracker.after_start]
    exact RangeTracker.start_of_create hcreate
  have hunderway := underway_of_afloat hafloat hlength hstart
    ⟨fractions.map .split, by simp [RangeTracker.Call.From], hsame⟩
  exact hunderway.progresses hlength hcreate requests

/-- The progress of every tracker that is told of no record before its start, and of every reader
that has opened its file. -/
theorem progresses_from_start :
    (∀ start stop tracker, RangeTracker.create start stop = .ok tracker → ∀ calls,
      (∀ c ∈ calls, RangeTracker.Call.From start c) → tracker.Progresses calls) ∧
    ∀ (t : FileTree) filename number content, t.entry filename = .ok (.file number content) →
      content.length < 2 ^ 63 → ∀ start stop scanSize, 0 < scanSize →
        ∃ r last, create t filename start stop scanSize = .ok r ∧
          RangeTracker.create start last = .ok r.tracker ∧
          ∀ (fractions : List UInt64) opened,
            openFile t (r.serveAll (fractions.map .split)) = .ok () opened →
            ∀ requests, Progresses start r.tracker opened requests := by
  refine ⟨fun start stop tracker hcreate calls hfrom =>
    RangeTracker.progresses_of_create hcreate hfrom, ?_⟩
  intro t filename number content hentry hlength start stop scanSize hscan
  let r := unopened filename start stop content.length scanSize
  have hashore : Ashore content t r := ⟨⟨number, hentry⟩, rfl, rfl, rfl, rfl⟩
  have hle : start ≤ r.tracker.stop := by
    change start ≤ if start ≤ _ then _ else start
    split
    · assumption
    · exact UInt64.le_refl _
  have hcreate : RangeTracker.create start r.tracker.stop = .ok r.tracker :=
    if_neg (UInt64.not_lt.2 hle)
  exact ⟨r, r.tracker.stop, create_unopened hentry start stop scanSize, hcreate,
    fun _ _ hopen requests => hashore.progresses hlength hscan hcreate hopen requests⟩

/-- A range of a hundred bytes with a split between two records, and a reader of the birds that
gives up their second block, with the range behind it given up before it opens its file. -/
theorem progresses_birds :
    (∃ t, RangeTracker.create 100 200 = .ok t ∧
      t.Progresses [.report true 110, .split 0x3fe0000000000000, .report true 140, .markDone]) ∧
    ∃ r opened, create Plan.birdsTree "birds" 1 88 4 = .ok r ∧
      openFile Plan.birdsTree (r.serveAll [.split 0x3fe999999999999a]) = .ok () opened ∧
      Progresses 1 r.tracker opened [.readNext, .split 0x3fe0000000000000, .readNext, .readNext] := by
  have hall := progresses_from_start
  constructor
  · exact ⟨_, rfl, hall.1 100 200 _ rfl _ (by decide)⟩
  · have hentry : Plan.birdsTree.entry "birds" = .ok (.file 0 Plan.birds.content) := rfl
    obtain ⟨r, last, hcreate, -, hprogresses⟩ := hall.2 Plan.birdsTree "birds" 0 Plan.birds.content
      hentry (by decide +kernel) 1 88 4 (by decide)
    have hopens : ((create Plan.birdsTree "birds" 1 88 4).toOption.map fun r =>
        match openFile Plan.birdsTree (r.serveAll [.split 0x3fe999999999999a]) with
        | .ok _ _ => true
        | .error _ _ => false) = some true := by decide +kernel
    cases hrun : openFile Plan.birdsTree (r.serveAll [.split 0x3fe999999999999a]) with
    | error e opened => simp [hcreate, Except.toOption, hrun] at hopens
    | ok u opened => exact ⟨r, opened, hcreate, hrun, hprogresses [0x3fe999999999999a] opened hrun _⟩

end BlockReader
end BlockContainer
