import BlockContainer.Proofs.Block.Reports
import BlockContainer.Proofs.Header.Passes

/-! # The passes of reading blocks

A reader goes from block to block until it finds one with records, and a cursor goes on until it
has a record to decode. Blocks without records may follow one another, but each of them takes
bytes. Once a file of any content has been opened, its bytes are the only reason for which these
loops are left without a result, also in calls behind those that have failed.
-/
namespace BlockContainer

namespace BlockReader

variable {content : Bytes} {r r' : BlockReader}

def blockLoop : Loop BlockReader BlockReader (EStateM.Result Error BlockReader Bool) where
  enter := .again
  body r :=
    match approach r with
    | .error e r => .leave (.error e r)
    | .ok false r => .leave (.ok false r)
    | .ok true r =>
      match readBlock r with
      | .error e r => .leave (.error e r)
      | .ok b r =>
        if b.recordCount = 0 then .again r
        else match unpack b r with
          | .error e r => .leave (.error e r)
          | .ok () r => .leave (.ok true r)

theorem consumes_blockLoop : blockLoop.Consumes left := by
  intro r r' hpass
  simp only [blockLoop] at hpass
  split at hpass
  · cases hpass
  · cases hpass
  · next happroach =>
    split at hpass
    · cases hpass
    · next hread =>
      have hgranted := consumes_approach happroach
      have hless := consumes_readBlock hread
      split at hpass
      · cases hpass
        omega
      · split at hpass <;> cases hpass

theorem readNext_eq (r : BlockReader) : readNext r = (blockLoop.body r).result readNext := by
  simp only [blockLoop]
  rw [readNext]
  split
  · next happroach => simp only [happroach, Pass.result_leave]
  · next happroach => simp only [happroach, Pass.result_leave]
  · next r₁ happroach =>
    simp only [happroach]
    split
    · next hread => simp only [hread, Pass.result_leave]
    · next b r₂ hread =>
      simp only [hread]
      by_cases hcount : b.recordCount = 0
      · simp only [hcount, if_true, Pass.result_again]
      · simp only [hcount, if_false]
        cases unpack b r₂ <;> rfl

theorem endsOnInput_readNext : blockLoop.EndsOnInput left left readNext :=
  consumes_blockLoop.endsOnInput readNext_eq (fun _ => rfl) fun _ _ henter => by
    cases henter
    exact Nat.le_refl _

/-- The next block that is read holds records. -/
theorem count_of_readNext (h : readNext r = .ok true r') : r'.recordCount.toInt.toNat ≠ 0 := by
  fun_induction readNext r with
  | case1 => cases h
  | case2 => cases h
  | case3 => cases h
  | case4 _ _ _ _ _ _ _ ih => exact ih h
  | case5 => cases h
  | case6 r r₁ happroach b r₂ hread hcount r' hunpack =>
    cases h
    exact count_of_unpack hread hcount hunpack

/-- The reader has opened a file with this content and chosen a codec, and what it is going to
report is no less than what it has reported. -/
structure Seaworthy (content : Bytes) (r : BlockReader) : Prop where
  codec : r.codec?.isSome
  underway : Underway content 0 r.tracker r
  order : r.nextBlockStart < r.fileSize → ∀ offset ∈ r.tracker.last?, offset ≤ r.nextBlockStart

theorem Afloat.seaworthy (h : Afloat content r) (hlength : content.length < 2 ^ 63) :
    Seaworthy content r where
  codec := h.codec
  underway := (underway_of_afloat h hlength rfl ⟨[], by simp, rfl⟩).from fun _ => UInt64.zero_le
  order _ := h.order

theorem Seaworthy.approach (h : Seaworthy content r) :
    ∃ granted r', BlockReader.approach r = .ok granted r' ∧ Seaworthy content r' ∧
      (granted = true → r'.nextBlockStart < r'.fileSize) := by
  obtain ⟨granted, tracker, hrun, -, hlast, hinside⟩ :=
    approach_in_order h.underway.isOpen h.order
  have hunderway := Runs.after_of_ok hrun ▸ h.underway.approach
  refine ⟨granted, _, hrun, ⟨h.codec, hunderway.from fun _ => UInt64.zero_le, ?_⟩, hinside⟩
  intro hinside offset hoffset
  rcases hlast with hlast | hlast
  · exact h.order hinside offset (hlast ▸ hoffset)
  · cases hlast.symm.trans hoffset
    exact UInt64.le_refl _

theorem Seaworthy.readBlock (h : Seaworthy content r) (hlength : content.length < 2 ^ 63)
    (hinside : r.nextBlockStart < r.fileSize) :
    Seaworthy content (Runs.after BlockReader.readBlock r) := by
  have hcodec : Runs.Keeps (fun r => r.codec?.isSome) BlockReader.readBlock :=
    keeps_readBlock fun _ _ _ _ _ h => h
  have htracker : Runs.Keeps (fun r' => r'.tracker = r.tracker) BlockReader.readBlock :=
    keeps_readBlock fun _ _ _ _ _ h => h
  refine ⟨hcodec h.codec, (h.underway.readBlock hlength hinside).from fun _ => UInt64.zero_le, ?_⟩
  intro hinside' offset hoffset
  -- Seen from an offset that has been reported, the block brings the reader behind it.
  rw [htracker rfl] at hoffset
  have hfrom := h.underway.from fun hinside => h.order hinside offset hoffset
  exact ((hfrom.readBlock hlength hinside).stands hinside').1

theorem Seaworthy.withDecoder (h : Seaworthy content r) (decoder? : Option Decoder) :
    Seaworthy content { r with decoder? } :=
  ⟨h.codec, ⟨h.underway.isOpen, h.underway.fileSize_eq, ⟨[], by simp, rfl⟩, h.underway.stands⟩,
    h.order⟩

theorem Seaworthy.unpack (h : Seaworthy content r) (b : Block) :
    Runs.EndsIn Error.InBytes (Seaworthy content) (BlockReader.unpack b r) := by
  have hkeeps := keeps_unpack (P := Seaworthy content) (fun _ _ h => h.withDecoder _) b h
  have hfails := failsWith_unpack h.codec b
  cases hrun : BlockReader.unpack b r with
  | ok u r' => exact Runs.after_of_ok hrun ▸ hkeeps
  | error e r' => exact ⟨hfails hrun, Runs.after_of_error hrun ▸ hkeeps⟩

/-- A pass leaves the reader seaworthy, and fails only for the bytes. -/
theorem Seaworthy.pass (h : Seaworthy content r) (hlength : content.length < 2 ^ 63) :
    (blockLoop.body r).Leads (Seaworthy content)
      (Runs.EndsIn Error.InBytes (Seaworthy content)) := by
  obtain ⟨granted, r₁, happroach, h₁, hinside⟩ := h.approach
  cases granted with
  | false =>
    simp only [blockLoop, happroach]
    exact h₁
  | true =>
    have hread := h₁.readBlock hlength (hinside rfl)
    cases hblock : BlockReader.readBlock r₁ with
    | error e r₂ =>
      simp only [blockLoop, happroach, hblock]
      exact ⟨failsWith_readBlock hblock, Runs.after_of_error hblock ▸ hread⟩
    | ok b r₂ =>
      rw [Runs.after_of_ok hblock] at hread
      by_cases hcount : b.recordCount = 0
      · simp only [blockLoop, happroach, hblock, hcount, if_true]
        exact hread
      · have hunpack := hread.unpack b
        simp only [blockLoop, happroach, hblock, hcount, if_false]
        split <;> rename_i hrun <;> rw [hrun] at hunpack <;> exact hunpack

theorem Seaworthy.readNext (h : Seaworthy content r) (hlength : content.length < 2 ^ 63) :
    Runs.EndsIn Error.InBytes (Seaworthy content) (BlockReader.readNext r) := by
  obtain ⟨n, hleaves, -⟩ := consumes_blockLoop.leaves readNext_eq r
  exact hleaves.leads h fun _ hr => hr.pass hlength

theorem Seaworthy.split (h : Seaworthy content r) (fraction : UInt64) :
    Seaworthy content (r.trySplit fraction).2 := by
  have hunderway := h.underway.perform (c := .split fraction) trivial
  refine ⟨h.codec, hunderway.from fun _ => UInt64.zero_le, fun hinside offset hoffset => ?_⟩
  refine h.order hinside offset ?_
  rcases RangeTracker.trySplit_cases fraction r.tracker with hnone | ⟨cut, hcut, -⟩
  · exact congrArg (fun split => split.2.last?) hnone ▸ hoffset
  · exact congrArg (fun split => split.2.last?) hcut ▸ hoffset

theorem Seaworthy.serveAll (h : Seaworthy content r) (hlength : content.length < 2 ^ 63)
    (requests : List Request) : Seaworthy content (r.serveAll requests) := by
  induction requests generalizing r with
  | nil => exact h
  | cons request rest ih =>
    cases request with
    | readNext => exact ih (h.readNext hlength).after
    | split fraction => exact ih (h.split fraction)

end BlockReader

namespace ContainerReader

variable {α : Type} {content : Bytes} {t : FileTree} {r r' : ContainerReader α}

def refillLoop :
    Loop (ContainerReader α) (ContainerReader α)
      (EStateM.Result Error (ContainerReader α) Bool) where
  enter r :=
    if r.started then .again r else .leave (.error (.misuse (.notStarted .container)) r)
  body r :=
    if r.recordsLeft = 0 then
      match BlockReader.readNext r.blocks with
      | .error e blocks => .leave (.error e { r with blocks })
      | .ok false blocks => .leave (.ok false { r with blocks, current? := none })
      | .ok true blocks =>
        .again { r with blocks, recordsLeft := blocks.recordCount.toInt.toNat }
    else .leave ((do decodeOne; return true : Step α Bool) r)

def moveOn (r : ContainerReader α) : EStateM.Result Error (ContainerReader α) Bool :=
  (do
    if ← refill then do
      decodeOne
      return true
    else return false : Step α Bool) r

theorem consumes_refillLoop : (refillLoop (α := α)).Consumes bytesLeft := by
  intro r r' hpass
  simp only [refillLoop] at hpass
  split at hpass
  · split at hpass
    · cases hpass
    · cases hpass
    · next hnext =>
      cases hpass
      exact BlockReader.left_lt_of_readNext hnext
  · cases hpass

theorem moveOn_eq (r : ContainerReader α) : moveOn r = (refillLoop.body r).result moveOn := by
  by_cases hleft : r.recordsLeft = 0
  · have hrefill := refill_idle hleft
    simp only [refillLoop, if_pos hleft]
    cases hnext : BlockReader.readNext r.blocks with
    | error e blocks =>
      rw [hnext] at hrefill
      exact Runs.bind_of_error hrefill
    | ok found blocks =>
      rw [hnext] at hrefill
      cases found with
      | false => exact Runs.bind_of_ok hrefill
      | true =>
        -- The block has records, so the loop is left with its next pass.
        have hbusy := refill_busy (r := { r with
          blocks, recordsLeft := blocks.recordCount.toInt.toNat })
          (BlockReader.count_of_readNext hnext)
        have hnext := (Runs.bind_of_ok hbusy : moveOn _ = _).symm
        exact (Runs.bind_of_ok hrefill).trans hnext
  · simp only [refillLoop, if_neg hleft]
    exact Runs.bind_of_ok (refill_busy hleft)

theorem advance_enters (r : ContainerReader α) :
    advance r = (refillLoop.enter r).result moveOn := by
  cases hstarted : r.started with
  | false =>
    simp only [refillLoop, hstarted]
    exact advance_of_not_started hstarted
  | true =>
    simp only [refillLoop, hstarted]
    rw [advance, Runs.get_bind, Runs.ensure_bind hstarted]
    rfl

theorem endsOnInput_advance :
    (refillLoop (α := α)).EndsOnInput bytesLeft bytesLeft advance := by
  refine consumes_refillLoop.endsOnInput moveOn_eq advance_enters fun r r' henter => ?_
  simp only [refillLoop] at henter
  split at henter <;> cases henter
  exact Nat.le_refl _

structure Seaworthy (content : Bytes) (r : ContainerReader α) : Prop where
  equipped : Equipped r
  blocks : r.blocks.Seaworthy content
  decoder : r.recordsLeft ≠ 0 → r.blocks.decoder?.isSome

theorem Seaworthy.decodeOne (h : Seaworthy content r) (hleft : r.recordsLeft ≠ 0) :
    Runs.EndsIn Error.InBytes (Seaworthy content)
      ((do ContainerReader.decodeOne; return true : Step α Bool) r) := by
  obtain ⟨decoding, hdecoding⟩ := Option.isSome_iff_exists.1 h.equipped.decoding
  obtain ⟨d, hd⟩ := Option.isSome_iff_exists.1 (h.decoder hleft)
  have hkeeps (d : Decoder) (current? : Option α) (recordsLeft : Nat) : Seaworthy content { r with
      blocks := { r.blocks with decoder? := some d }, current?, recordsLeft } :=
    ⟨⟨h.equipped.started, h.equipped.codec, h.equipped.decoding⟩, h.blocks.withDecoder _,
      fun _ => rfl⟩
  have hrun := decodeOne_apply hdecoding hd
  cases hdecode : decoding d with
  | error e d' =>
    rw [hdecode] at hrun
    rw [Runs.bind_of_error hrun]
    exact ⟨⟨e, rfl⟩, hkeeps _ _ _⟩
  | ok x d' =>
    rw [hdecode] at hrun
    rw [Runs.bind_of_ok hrun]
    exact hkeeps _ _ _

theorem Seaworthy.pass (h : Seaworthy content r) (hlength : content.length < 2 ^ 63) :
    (refillLoop.body r).Leads (Seaworthy content)
      (Runs.EndsIn Error.InBytes (Seaworthy content)) := by
  by_cases hleft : r.recordsLeft = 0
  · have hblocks := h.blocks.readNext hlength
    simp only [refillLoop, if_pos hleft]
    cases hnext : BlockReader.readNext r.blocks with
    | error e blocks =>
      rw [hnext] at hblocks
      refine ⟨hblocks.1, ⟨h.equipped.started, hblocks.2.codec, h.equipped.decoding⟩, hblocks.2, ?_⟩
      exact fun hne => absurd hleft hne
    | ok found blocks =>
      rw [hnext] at hblocks
      cases found with
      | false =>
        exact ⟨⟨h.equipped.started, hblocks.codec, h.equipped.decoding⟩, hblocks,
          fun hne => absurd hleft hne⟩
      | true =>
        exact ⟨⟨h.equipped.started, hblocks.codec, h.equipped.decoding⟩, hblocks,
          fun _ => BlockReader.decoder_of_readNext hnext⟩
  · simp only [refillLoop, if_neg hleft]
    exact h.decodeOne hleft

theorem Seaworthy.advance (h : Seaworthy content r) (hlength : content.length < 2 ^ 63) :
    Runs.EndsIn Error.InBytes (Seaworthy content) (ContainerReader.advance r) := by
  have henter : refillLoop.enter r = .again r := if_pos h.equipped.started
  rw [advance_enters, henter, Pass.result_again]
  obtain ⟨n, hleaves, -⟩ := consumes_refillLoop.leaves moveOn_eq r
  exact hleaves.leads h fun _ hr => hr.pass hlength

variable [RecordType α]

def afterAll (t : FileTree) (r : ContainerReader α) (calls : List Call) : ContainerReader α :=
  calls.foldl (fun r c => Runs.after (perform t c) r) r

theorem after_current : Runs.after (perform t .current) r = r := by
  simp only [Runs.after, perform]
  cases r.current <;> rfl

theorem Seaworthy.perform (h : Seaworthy content r) (hlength : content.length < 2 ^ 63) {c : Call}
    (hc : c ≠ .close) : Seaworthy content (Runs.after (ContainerReader.perform t c) r) := by
  cases c with
  | start =>
    rw [ContainerReader.perform, Runs.after_map, start_eq_begin,
      Runs.after_of_error (Runs.bind_of_error (begin_of_started h.equipped.started))]
    exact h
  | advance =>
    rw [ContainerReader.perform, Runs.after_map]
    exact (h.advance hlength).after
  | current =>
    rw [after_current]
    exact h
  | split fraction =>
    exact ⟨⟨h.equipped.started, h.equipped.codec, h.equipped.decoding⟩, h.blocks.split fraction,
      h.decoder⟩
  | progress => exact h
  | close => exact absurd rfl hc

theorem Seaworthy.afterAll (h : Seaworthy content r) (hlength : content.length < 2 ^ 63)
    {calls : List Call} (hcalls : .close ∉ calls) : Seaworthy content (r.afterAll t calls) := by
  induction calls generalizing r with
  | nil => exact h
  | cons c rest ih =>
    rw [List.mem_cons, not_or] at hcalls
    exact ih (h.perform hlength (Ne.symm hcalls.1)) hcalls.2

structure Moored (content : Bytes) (t : FileTree) (r : ContainerReader α) : Prop where
  not_started : r.started = false
  count : r.recordsLeft = 0
  blocks : r.blocks.Ashore content t
  scan_pos : 0 < r.blocks.scanSize

theorem Moored.perform (h : Moored content t r) {c : Call} (hc : c ≠ .start) :
    Moored content t (Runs.after (ContainerReader.perform t c) r) := by
  cases c with
  | start => exact absurd rfl hc
  | advance =>
    rw [ContainerReader.perform, Runs.after_map,
      Runs.after_of_error (advance_of_not_started h.not_started)]
    exact h
  | current =>
    rw [after_current]
    exact h
  | split fraction =>
    exact ⟨h.not_started, h.count, (h.blocks.serveAll [fraction]).1, h.scan_pos⟩
  | progress => exact h
  | close =>
    exact ⟨h.not_started, h.count, ⟨h.blocks.entry, h.blocks.fileSize_eq, rfl, h.blocks.header_none,
      h.blocks.last_none⟩, h.scan_pos⟩

theorem Moored.afterAll (h : Moored content t r) {calls : List Call} (hcalls : .start ∉ calls) :
    Moored content t (r.afterAll t calls) := by
  induction calls generalizing r with
  | nil => exact h
  | cons c rest ih =>
    rw [List.mem_cons, not_or] at hcalls
    exact ih (h.perform (Ne.symm hcalls.1)) hcalls.2

/-- Opening the file leaves the reader seaworthy. -/
theorem Moored.begin (h : Moored content t r) (hlength : content.length < 2 ^ 63)
    (hrun : ContainerReader.begin t r = .ok () r') : Seaworthy content r' := by
  rw [begin_apply h.not_started] at hrun
  have hopens := BlockReader.openFile_ashore h.blocks hlength h.scan_pos
  cases hopen : BlockReader.openFile t r.blocks with
  | error e blocks =>
    rw [hopen] at hrun
    cases hrun
  | ok u blocks =>
    have hafloat := (hopens.leads hopen).1
    rw [hopen] at hrun
    simp only at hrun
    split at hrun <;> cases hrun
    exact ⟨⟨rfl, hafloat.codec, rfl⟩, hafloat.seaworthy hlength, fun hne => absurd h.count hne⟩

end ContainerReader

/-- The loops over the input end, whatever it is: a pass uses up a byte or is the last one, so
there is at most one pass more than there are bytes. By their types a string and a header fail for
nothing but their bytes. Neither do the blocks and the records of a file that has been opened,
whatever has been asked of their reader and however it ended. -/
theorem parsing_ends_on_input :
    (InputStream.stringLoop.EndsOnInput InputStream.left InputStream.StringReading.left
        InputStream.readString ∧
      Header.mapLoop.EndsOnInput Header.left Header.MapReading.left Header.read ∧
      BlockReader.blockLoop.EndsOnInput BlockReader.left BlockReader.left BlockReader.readNext ∧
      ∀ α : Type, (ContainerReader.refillLoop (α := α)).EndsOnInput ContainerReader.bytesLeft
        ContainerReader.bytesLeft ContainerReader.advance) ∧
    (∀ (t : FileTree) filename number content, t.entry filename = .ok (.file number content) →
      content.length < 2 ^ 63 → ∀ start stop scanSize, 0 < scanSize →
        ∃ r, BlockReader.create t filename start stop scanSize = .ok r ∧
          ∀ (fractions : List UInt64) opened,
            BlockReader.openFile t (r.serveAll (fractions.map .split)) = .ok () opened →
            ∀ requests, Runs.FailsWith Error.InBytes BlockReader.readNext
              (opened.serveAll requests)) ∧
    ∀ (α : Type) [RecordType α] (t : FileTree) (source : Source) number content,
      t.entry source.path = .ok (.file number content) → content.length < 2 ^ 63 →
      ∀ scanSize : UInt64, 0 < scanSize →
        ∃ r : ContainerReader α, ContainerReader.create t source scanSize = .ok r ∧
          ∀ before, .start ∉ before → ∀ opened,
            ContainerReader.begin t (r.afterAll t before) = .ok () opened →
            ∀ calls, .close ∉ calls →
              Runs.FailsWith Error.InBytes ContainerReader.advance (opened.afterAll t calls) := by
  refine ⟨⟨InputStream.endsOnInput_readString, Header.endsOnInput_read,
    BlockReader.endsOnInput_readNext, fun _ => ContainerReader.endsOnInput_advance⟩, ?_, ?_⟩
  · intro t filename number content hentry hlength start stop scanSize hscan
    refine ⟨_, BlockReader.create_unopened hentry start stop scanSize, ?_⟩
    intro fractions opened hopen requests
    have hashore : (BlockReader.unopened filename start stop content.length scanSize).Ashore
        content t := ⟨⟨number, hentry⟩, rfl, rfl, rfl, rfl⟩
    obtain ⟨hsplit, hsize, -⟩ := hashore.serveAll fractions
    have hafloat := ((BlockReader.openFile_ashore hsplit hlength (hsize ▸ hscan)).leads hopen).1
    exact (((hafloat.seaworthy hlength).serveAll hlength requests).readNext hlength).fails
  · intro α _ t source number content hentry hlength scanSize hscan
    refine ⟨_, ContainerReader.create_of_entry hentry scanSize, ?_⟩
    intro before hbefore opened hopen calls hcalls
    have hmoored : (ContainerReader.unstarted (α := α) source scanSize content.length).Moored
        content t :=
      ⟨rfl, rfl, ⟨⟨number, hentry⟩, rfl, rfl, rfl, rfl⟩, UInt64.lt_iff_toNat_lt.1 hscan⟩
    have hopened := (hmoored.afterAll hbefore).begin hlength hopen
    exact ((hopened.afterAll hlength hcalls).advance hlength).fails

def torn : FileTree where
  entries := [(["birds"], .file 0 (Header.toBytes { marker := .counting } ++
    (List.replicate 3 (Block.toBytes {} .counting)).flatten ++ [2, 8, 0x61]))]
  made := 1

def endless : HeaderReading where
  stream := .ofBytes .memory ([0x4f, 0x62, 0x6a, 1, 0xfe] ++ List.replicate 8 0xff ++ [1])
  header := {}

/-- The announced entries take no more passes than there are bytes. The torn block is told of, to
a reader with a split behind it and to a cursor, and so is what it leads to in later calls. -/
theorem parsing_ends_on_input_hostile :
    (∃ s n, Header.mapLoop.enter endless = .again s ∧ n ≤ 15 ∧
      Header.mapLoop.Leaves s n (.error .streamEndInVarint (Runs.after Header.read endless))) ∧
    (∃ r opened, BlockReader.create torn "birds" 1 200 4 = .ok r ∧
      BlockReader.openFile torn (r.serveAll [.split 0x3fefae147ae147ae]) = .ok () opened ∧
      Runs.FailsWith Error.InBytes BlockReader.readNext (opened.serveAll [.readNext]) ∧
      Runs.error? BlockReader.readNext opened = some (.format (.blockTooLong 75 4 1))) ∧
    ∃ r opened : ContainerReader Bird, ContainerReader.create torn Plan.birdsSource 4 = .ok r ∧
      ContainerReader.begin torn (r.afterAll torn [.progress]) = .ok () opened ∧
      Runs.FailsWith Error.InBytes ContainerReader.advance (opened.afterAll torn [.advance]) := by
  obtain ⟨⟨-, hheader, -⟩, hblocks, hrecords⟩ := parsing_ends_on_input
  obtain ⟨number, content, hentry, hlength⟩ : ∃ number content,
      torn.entry "birds" = .ok (.file number content) ∧ content.length < 2 ^ 63 :=
    ⟨_, _, rfl, by decide +kernel⟩
  refine ⟨?_, ?_, ?_⟩
  · have hmagic : Runs.value? (Header.onStream Header.readMagic) endless = some () := by
      decide +kernel
    have hfails : Runs.error? Header.read endless = some .streamEndInVarint := by decide +kernel
    have hbytes : Header.left endless = 14 := by decide +kernel
    have henter := hheader.ends endless
    rw [Runs.eq_error_iff.2 hfails] at henter
    rcases henter with hskip | ⟨s, n, henter, hleft, hleaves, hn⟩
    · simp only [Header.mapLoop, Runs.eq_ok_iff.2 hmagic] at hskip
      cases hskip
    · exact ⟨s, n, henter, by omega, hleaves⟩
  · obtain ⟨r, hcreate, hreads⟩ := hblocks torn "birds" number content hentry hlength 1 200 4
      (by decide)
    let split (r : BlockReader) := r.serveAll [.split 0x3fefae147ae147ae]
    have hopens : ((BlockReader.create torn "birds" 1 200 4).toOption.map fun r =>
        Runs.value? (BlockReader.openFile torn) (split r)) = some (some ()) := by decide +kernel
    have hfails : ((BlockReader.create torn "birds" 1 200 4).toOption.map fun r =>
        Runs.error? BlockReader.readNext (Runs.after (BlockReader.openFile torn) (split r))) =
          some (some (.format (.blockTooLong 75 4 1))) := by decide +kernel
    rw [hcreate] at hopens hfails
    have hopen := Runs.eq_ok_iff.2 (Option.some.inj hopens)
    exact ⟨r, _, hcreate, hopen, hreads [0x3fefae147ae147ae] _ hopen _, Option.some.inj hfails⟩
  · obtain ⟨r, hcreate, hreads⟩ := hrecords Bird torn Plan.birdsSource number content hentry
      hlength 4 (by decide)
    have hopens : ((ContainerReader.create (α := Bird) torn Plan.birdsSource 4).toOption.map
        fun r => Runs.value? (ContainerReader.begin torn) (r.afterAll torn [.progress])) =
          some (some ()) := by decide +kernel
    rw [hcreate] at hopens
    have hopen := Runs.eq_ok_iff.2 (Option.some.inj hopens)
    exact ⟨r, _, hcreate, hopen, hreads [.progress] (by decide) _ hopen [.advance] (by decide)⟩

end BlockContainer
