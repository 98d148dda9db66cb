import BlockContainer.Proofs.Block.Opening
import BlockContainer.Reader.Turn

/-! # Turns make up the calls

`start` opens the file and then moves to the first record, and moving to a record is nothing
but turns, up to the one that decodes a record or finds that there is none.
-/
namespace BlockContainer

variable {α : Type}

namespace BlockReader

/-- A block that was read declares some number of records, and the reader keeps it. -/
theorem recordCount_of_readBlock {r r' : BlockReader} {b : Block} (h : readBlock r = .ok b r') :
    0 ≤ b.recordCount.toInt ∧ r'.recordCount = b.recordCount := by
  obtain ⟨_, _, hget, h⟩ := bind_eq_ok_iff.1 h
  cases hget
  obtain ⟨framing, _, hframing, h⟩ := bind_eq_ok_iff.1 h
  obtain ⟨s, hread, rfl⟩ := focus_eq_ok_iff.1 hframing
  have hsign : 0 ≤ framing.count.toInt := by
    obtain ⟨_, _, _, hread⟩ := bind_eq_ok_iff.1 hread
    obtain ⟨_, _, _, hread⟩ := bind_eq_ok_iff.1 hread
    obtain ⟨_, _, _, hread⟩ := bind_eq_ok_iff.1 hread
    obtain ⟨_, _, hensure, hread⟩ := bind_eq_ok_iff.1 hread
    obtain ⟨_, _, _, hread⟩ := bind_eq_ok_iff.1 hread
    obtain ⟨_, _, _, hread⟩ := bind_eq_ok_iff.1 hread
    cases hread
    exact (ensure_eq_ok_iff.1 hensure).1.1
  obtain ⟨_, _, hmodify, h⟩ := bind_eq_ok_iff.1 h
  cases hmodify
  obtain ⟨payload, _, hbody, h⟩ := bind_eq_ok_iff.1 h
  obtain ⟨s', -, rfl⟩ := focus_eq_ok_iff.1 hbody
  obtain ⟨_, _, hmodify, h⟩ := bind_eq_ok_iff.1 h
  cases hmodify
  cases h
  exact ⟨hsign, rfl⟩

/-- What unpacking a block comes to. -/
theorem unpack_apply (b : Block) (r : BlockReader) :
    unpack b r = match r.codec? with
      | none => .error (.misuse .codecMissing) r
      | some codec => match codec.decompress b.payload with
        | .error e => .error (.format e) r
        | .ok data => .ok () { r with decoder? := some (.ofBytes data) } := by
  rcases r with ⟨filename, scanSize, fileSize, tracker, stream?, file?, header, codec?, count⟩
  cases codec? with
  | none => rfl
  | some codec =>
    rw [unpack, Runs.get_bind]
    simp only
    cases codec.decompress b.payload with
    | error e => rfl
    | ok data => rfl

/-- Unpacking a block makes its records ready, and that is all. -/
theorem unpack_eq_ok_iff {r r' : BlockReader} {b : Block} :
    unpack b r = .ok () r' ↔ ∃ codec data, r.codec? = some codec ∧
      codec.decompress b.payload = .ok data ∧ r' = { r with decoder? := some (.ofBytes data) } := by
  rw [unpack_apply]
  constructor
  · intro h
    split at h
    · cases h
    · next codec hcodec =>
      split at h
      · cases h
      · next data hdata =>
        cases h
        exact ⟨codec, data, hcodec, hdata, rfl⟩
  · rintro ⟨codec, data, hcodec, hdata, rfl⟩
    simp only [hcodec, hdata]

/-- A count that is neither zero nor negative leaves a record to be decoded. -/
theorem count_of_unpack {r r' r'' : BlockReader} {b : Block} (hread : readBlock r = .ok b r')
    (hcount : b.recordCount ≠ 0) (hunpack : unpack b r' = .ok () r'') :
    r''.recordCount.toInt.toNat ≠ 0 := by
  obtain ⟨hsign, hkept⟩ := recordCount_of_readBlock hread
  have hne : b.recordCount.toInt ≠ 0 := fun hzero => hcount (Int64.toInt_inj.1 hzero)
  obtain ⟨_, data, -, -, rfl⟩ := unpack_eq_ok_iff.1 hunpack
  simp only [hkept]
  omega

end BlockReader

namespace ContainerReader

def unstarted (source : Source) (scanSize : UInt64) (length : Nat) : ContainerReader α where
  source := source
  blocks := {
    filename := source.path
    scanSize := scanSize.toNat
    fileSize := UInt64.ofNat length
    tracker := .ofRange source.start
      (max source.start (min source.stop (UInt64.ofNat length))) }

theorem create_of_entry {t : FileTree} {source : Source} {number : Nat} {content : Bytes}
    (hentry : t.entry source.path = .ok (.file number content)) (scanSize : UInt64) :
    create (α := α) t source scanSize = .ok (unstarted source scanSize content.length) := by
  rw [create, BlockReader.create_unopened hentry]
  rfl

def begin [RecordType α] (t : FileTree) : Step α Unit := do
  let r ← get
  ensure (!r.started) (.misuse (.startedTwice .container))
  modify fun r => { r with started := true }
  onBlocks (BlockReader.openFile t)
  let header := (← get).blocks.header
  let decoding ← check ((RecordType.decoding r.source.binding header).mapError .configuration)
  modify fun r => { r with decoding? := some decoding }

theorem start_eq_begin [RecordType α] (t : FileTree) :
    start (α := α) t = begin t >>= fun _ => advance := by
  simp only [start, begin, bind_assoc]

theorem start_of_begin [RecordType α] {t : FileTree} {r r' : ContainerReader α}
    (h : begin t r = .ok () r') : start t r = advance r' := by
  rw [start_eq_begin, Runs.bind_of_ok h]

theorem onBlocks_of_ok {β : Type} {m : EStateM Error BlockReader β} {r : ContainerReader α} {b : β}
    {blocks : BlockReader} (h : m r.blocks = .ok b blocks) :
    onBlocks m r = .ok b { r with blocks } :=
  Runs.focus_of_ok h

theorem onBlocks_of_error {β : Type} {m : EStateM Error BlockReader β} {r : ContainerReader α}
    {e : Error} {blocks : BlockReader} (h : m r.blocks = .error e blocks) :
    onBlocks m r = .error e { r with blocks } :=
  Runs.focus_of_error h

/-- What opening a reader comes to that has not been started. -/
theorem begin_apply [RecordType α] {t : FileTree} {r : ContainerReader α} (h : r.started = false) :
    begin t r = match BlockReader.openFile t r.blocks with
      | .error e blocks => .error e { r with started := true, blocks }
      | .ok () blocks => match RecordType.decoding r.source.binding blocks.header with
        | .error e => .error (.configuration e) { r with started := true, blocks }
        | .ok decoding => .ok () { r with started := true, blocks, decoding? := some decoding } := by
  have hfresh : (!r.started) = true := by rw [h]; rfl
  rw [begin, Runs.get_bind, Runs.ensure_bind hfresh, Runs.modify_bind]
  cases hopen : BlockReader.openFile t r.blocks with
  | error e blocks =>
    exact Runs.bind_of_error (onBlocks_of_error (r := { r with started := true }) hopen)
  | ok u blocks =>
    apply (Runs.bind_of_ok (onBlocks_of_ok (r := { r with started := true }) hopen)).trans
    rw [Runs.get_bind]
    simp only
    cases RecordType.decoding (α := α) r.source.binding blocks.header with
    | error e => rfl
    | ok decoding => rfl

/-- What asking for the next block comes to. -/
theorem proceed_idle {r : ContainerReader α} (h : r.recordsLeft = 0) :
    proceed r = match BlockReader.approach r.blocks with
      | .error e blocks => .error e { r with blocks }
      | .ok true blocks => .ok .approached { r with blocks }
      | .ok false blocks => .ok .finished { r with blocks, current? := none } := by
  rw [proceed, Runs.get_bind, if_neg (fun hne => hne h)]
  cases happroach : BlockReader.approach r.blocks with
  | error e blocks => exact Runs.bind_of_error (onBlocks_of_error happroach)
  | ok granted blocks =>
    apply (Runs.bind_of_ok (onBlocks_of_ok happroach)).trans
    cases granted <;> rfl

/-- What reading the next block comes to. -/
theorem takeBlock_apply (r : ContainerReader α) :
    takeBlock r = match BlockReader.readBlock r.blocks with
      | .error e blocks => .error e { r with blocks }
      | .ok b blocks =>
        if b.recordCount = 0 then .ok .unfinished { r with blocks }
        else match BlockReader.unpack b blocks with
          | .error e blocks => .error e { r with blocks }
          | .ok () blocks => .ok .unfinished
              { r with blocks, recordsLeft := blocks.recordCount.toInt.toNat } := by
  rw [takeBlock]
  cases hread : BlockReader.readBlock r.blocks with
  | error e blocks => exact Runs.bind_of_error (onBlocks_of_error hread)
  | ok b blocks =>
    apply (Runs.bind_of_ok (onBlocks_of_ok hread)).trans
    by_cases hcount : b.recordCount = 0
    · simp only [hcount, if_true, Runs.pure_apply]
    · simp only [hcount, if_false]
      cases hunpack : BlockReader.unpack b blocks with
      | error e blocks' =>
        have hrun := onBlocks_of_error (r := { r with blocks }) hunpack
        exact Runs.bind_of_error hrun
      | ok u blocks' =>
        have hrun := onBlocks_of_ok (r := { r with blocks }) hunpack
        exact Runs.bind_of_ok hrun

/-- What decoding a record of the present block comes to. -/
theorem decodeOne_apply {r : ContainerReader α} {decoding : Decoding α} {d : Decoder}
    (hdecoding : r.decoding? = some decoding) (hd : r.blocks.decoder? = some d) :
    decodeOne r = match decoding d with
      | .error e d => .error (.format e) { r with blocks := { r.blocks with decoder? := some d } }
      | .ok x d => .ok () { r with
          blocks := { r.blocks with decoder? := some d }
          current? := some x, recordsLeft := r.recordsLeft - 1 } := by
  have hblock : r.blocks.blockDecoder = .ok d := by
    rw [BlockReader.blockDecoder, hd]
  have hdecode : BlockReader.decode decoding r.blocks =
      focus (fun _ => d) (fun r d => { r with decoder? := some d }) .format decoding r.blocks := by
    rw [BlockReader.decode, Runs.get_bind, Runs.check_bind hblock]
  rw [decodeOne, Runs.get_bind, Runs.check_bind hblock]
  simp only [hdecoding]
  cases hrun : decoding d with
  | error e d' =>
    rw [Runs.focus_of_error hrun] at hdecode
    rw [Runs.bind_of_error (onBlocks_of_error hdecode), hdecoding]
  | ok x d' =>
    rw [Runs.focus_of_ok hrun] at hdecode
    rw [Runs.bind_of_ok (onBlocks_of_ok hdecode), Runs.modify_apply, hdecoding]

theorem refill_idle {r : ContainerReader α} (h : r.recordsLeft = 0) :
    refill r = match BlockReader.readNext r.blocks with
      | .error e blocks => .error e { r with blocks }
      | .ok false blocks => .ok false { r with blocks, current? := none }
      | .ok true blocks =>
        .ok true { r with blocks, recordsLeft := blocks.recordCount.toInt.toNat } := by
  rw [refill, Runs.get_bind, if_neg (fun hne => hne h)]
  cases hnext : BlockReader.readNext r.blocks with
  | error e blocks => exact Runs.bind_of_error (onBlocks_of_error hnext)
  | ok found blocks =>
    apply (Runs.bind_of_ok (onBlocks_of_ok hnext)).trans
    cases found <;> rfl

theorem refill_busy {r : ContainerReader α} (h : r.recordsLeft ≠ 0) : refill r = .ok true r := by
  rw [refill, Runs.get_bind, if_pos h]
  rfl

/-- What moving to the next record comes to when the present block is used up. -/
theorem advance_idle {r : ContainerReader α} (hstarted : r.started = true) (h : r.recordsLeft = 0) :
    advance r = match BlockReader.readNext r.blocks with
      | .error e blocks => .error e { r with blocks }
      | .ok false blocks => .ok false { r with blocks, current? := none }
      | .ok true blocks =>
        (decodeOne >>= fun _ => pure true)
          { r with blocks, recordsLeft := blocks.recordCount.toInt.toNat } := by
  rw [advance, Runs.get_bind, Runs.ensure_bind hstarted]
  have hrefill := refill_idle h
  cases hnext : BlockReader.readNext r.blocks with
  | error e blocks =>
    rw [hnext] at hrefill
    exact Runs.bind_of_error hrefill
  | ok found blocks =>
    rw [hnext] at hrefill
    cases found with
    | false => exact Runs.bind_of_ok hrefill
    | true => exact Runs.bind_of_ok hrefill

theorem advance_busy {r : ContainerReader α} (hstarted : r.started = true) (h : r.recordsLeft ≠ 0) :
    advance r = (decodeOne >>= fun _ => pure true) r := by
  rw [advance, Runs.get_bind, Runs.ensure_bind hstarted]
  exact Runs.bind_of_ok (refill_busy h)

theorem proceed_busy {r : ContainerReader α} (h : r.recordsLeft ≠ 0) :
    proceed r = (decodeOne >>= fun _ => pure .record) r := by
  rw [proceed, Runs.get_bind, if_pos h]

theorem turn_apply {last : Turn} {r : ContainerReader α} (hstarted : r.started = true) :
    turn last r = if last = .approached then takeBlock r else proceed r := by
  rw [turn, Runs.get_bind, Runs.ensure_bind hstarted]
  split <;> rfl

/-- A turn that goes on uses something up or asks for a block that it has not asked for. -/
theorem turn_nearer {r r' : ContainerReader α} {last next : Turn} (h : turn last r = .ok next r') :
    next = .approached ∨ next = .unfinished →
    Prod.Lex (· < ·) (Prod.Lex (· < ·) (· < ·))
      (r'.bytesLeft, r'.recordsLeft, if next = .approached then 0 else 1)
      (r.bytesLeft, r.recordsLeft, if last = .approached then 0 else 1) := by
  intro hnext
  simp only [Prod.lex_def]
  refine (turn_ok h).imp id (And.imp id (Or.imp id (And.imp id fun hrank => ?_)))
  rcases hnext with rfl | rfl
  · rw [if_pos rfl, if_neg hrank.2]
    exact Nat.zero_lt_one
  · exact absurd hrank.1 (by decide)

/-- Turns without a break, up to a record or the end. -/
def turns (last : Turn) (r : ContainerReader α) : EStateM.Result Error (ContainerReader α) Bool :=
  match _ : turn last r with
  | .error e r => .error e r
  | .ok .finished r => .ok false r
  | .ok .record r => .ok true r
  | .ok .approached r => turns .approached r
  | .ok .unfinished r => turns .unfinished r
termination_by (r.bytesLeft, r.recordsLeft, if last = .approached then 0 else 1)
decreasing_by
  · exact turn_nearer ‹_› (.inl rfl)
  · exact turn_nearer ‹_› (.inr rfl)

theorem turns_apply (last : Turn) (r : ContainerReader α) :
    turns last r = match turn last r with
      | .error e r => .error e r
      | .ok .finished r => .ok false r
      | .ok .record r => .ok true r
      | .ok next r => turns next r := by
  rw [turns]
  split <;> rename_i h <;> rw [h]

theorem turns_busy {last : Turn} (hlast : last ≠ .approached) {r : ContainerReader α}
    (hstarted : r.started = true) (h : r.recordsLeft ≠ 0) :
    turns last r = (decodeOne >>= fun _ => pure true) r := by
  rw [turns_apply, turn_apply hstarted, if_neg hlast, proceed_busy h]
  cases hdecode : decodeOne r with
  | error e r' => rw [Runs.bind_of_error hdecode, Runs.bind_of_error hdecode]
  | ok u r' =>
    rw [Runs.bind_of_ok hdecode, Runs.bind_of_ok hdecode]
    rfl

theorem turns_ask {last : Turn} (hlast : last ≠ .approached) {r : ContainerReader α}
    (hstarted : r.started = true) (h : r.recordsLeft = 0) :
    turns last r = match BlockReader.approach r.blocks with
      | .error e blocks => .error e { r with blocks }
      | .ok true blocks => turns .approached { r with blocks }
      | .ok false blocks => .ok false { r with blocks, current? := none } := by
  rw [turns_apply, turn_apply hstarted, if_neg hlast, proceed_idle h]
  cases BlockReader.approach r.blocks with
  | error e blocks => rfl
  | ok granted blocks => cases granted <;> rfl

theorem turns_take {r : ContainerReader α} (hstarted : r.started = true) :
    turns .approached r = match BlockReader.readBlock r.blocks with
      | .error e blocks => .error e { r with blocks }
      | .ok b blocks =>
        if b.recordCount = 0 then turns .unfinished { r with blocks }
        else match BlockReader.unpack b blocks with
          | .error e blocks => .error e { r with blocks }
          | .ok () blocks => turns .unfinished
              { r with blocks, recordsLeft := blocks.recordCount.toInt.toNat } := by
  rw [turns_apply, turn_apply hstarted, if_pos rfl, takeBlock_apply]
  cases BlockReader.readBlock r.blocks with
  | error e blocks => rfl
  | ok b blocks =>
    by_cases hcount : b.recordCount = 0
    · simp only [hcount, if_true]
    · simp only [hcount, if_false]
      cases BlockReader.unpack b blocks <;> rfl

theorem turns_idle {last : Turn} (hlast : last ≠ .approached) {r : ContainerReader α}
    (hstarted : r.started = true) (h : r.recordsLeft = 0) (blocks : BlockReader) :
    turns last { r with blocks } = match BlockReader.readNext blocks with
      | .error e blocks => .error e { r with blocks }
      | .ok false blocks => .ok false { r with blocks, current? := none }
      | .ok true blocks =>
        (decodeOne >>= fun _ => pure true)
          { r with blocks, recordsLeft := blocks.recordCount.toInt.toNat } := by
  have hask (blocks : BlockReader) := turns_ask hlast (r := { r with blocks }) hstarted h
  have htake (blocks : BlockReader) := turns_take (r := { r with blocks }) hstarted
  fun_induction BlockReader.readNext blocks generalizing last with
  | case1 blocks e blocks' happroach => rw [hask blocks, happroach]
  | case2 blocks blocks' happroach => rw [hask blocks, happroach]
  | case3 blocks blocks' happroach e blocks'' hread =>
    rw [hask blocks, happroach]
    simp only [htake, hread]
  | case4 blocks blocks' happroach b blocks'' hread hcount ih =>
    rw [hask blocks, happroach]
    simp only [htake, hread, hcount, if_true]
    exact ih (by decide) fun blocks => turns_ask (by decide) (r := { r with blocks }) hstarted h
  | case5 blocks blocks' happroach b blocks'' hread hcount e blocks₃ hunpack =>
    rw [hask blocks, happroach]
    simp only [htake, hread, hcount, if_false, hunpack]
  | case6 blocks blocks' happroach b blocks'' hread hcount blocks₃ hunpack =>
    rw [hask blocks, happroach]
    simp only [htake, hread, hcount, if_false, hunpack]
    exact turns_busy (by decide) hstarted (BlockReader.count_of_unpack hread hcount hunpack)

/-- Moving to the next record is turns without a break. -/
theorem advance_eq_turns {last : Turn} (hlast : last ≠ .approached) (r : ContainerReader α)
    (hstarted : r.started = true) : advance r = turns last r := by
  by_cases hleft : r.recordsLeft = 0
  · rw [advance_idle hstarted hleft]
    exact (turns_idle hlast hstarted hleft r.blocks).symm
  · rw [advance_busy hstarted hleft, turns_busy hlast hstarted hleft]

end ContainerReader
end BlockContainer
