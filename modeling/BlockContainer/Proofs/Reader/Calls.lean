import BlockContainer.Proofs.Reader.AnyBytes

/-! # Calls of a reader in any order

A reader can be called on after a call that failed. What it reads with, its codec and its
decoder, is chosen while it is started. A start that fails on the way leaves the file open and
some of this missing, and moving on uses what is missing blindly. That is the only way to do
so: until then, and again once the reader has been closed, every call ends as it should.
-/
namespace BlockContainer

/-- A failure that a caller is told of. The use of a codec or a decoder that has never been
chosen is not one: it ends the program. -/
def Error.Told : Error → Prop
  | .misuse .codecMissing | .misuse .decoderMissing => False
  | _ => True

theorem Error.InBytes.told {e : Error} (h : e.InBytes) : e.Told := by
  obtain ⟨cause, rfl⟩ := h
  trivial

theorem Error.InBytesOrConfiguration.told {e : Error} (h : e.InBytesOrConfiguration) : e.Told := by
  rcases h with h | ⟨cause, rfl⟩
  · exact h.told
  · trivial

namespace SyncMarker

theorem ends_scanFrom (chunkSize consumed : Nat) (searcher : Searcher) (s : InputStream) :
    Runs.Ends Error.Told (fun _ _ => True) (scanFrom chunkSize consumed searcher s) := by
  induction hleft : s.left using Nat.strongRecOn generalizing consumed searcher s with
  | ind n ih =>
    have hless := InputStream.left_read s chunkSize
    generalize hread : s.read chunkSize = found at hless
    obtain ⟨chunk, s'⟩ := found
    rw [scanFrom_of_read hread]
    split
    · trivial
    · next hchunk =>
      split
      · exact ih s'.left (by simp only at hless; omega) _ _ _ rfl
      · split
        · trivial
        · split
          · exact .of_error rfl trivial
          · trivial

end SyncMarker

namespace RangeTracker

theorem ends_tryReturn (atSplitPoint : Bool) (offset : UInt64) (t : RangeTracker) :
    Runs.Ends Error.Told (fun _ _ => True) (tryReturn atSplitPoint offset t) := by
  cases hlast : t.last? with
  | none =>
    cases atSplitPoint with
    | false =>
      have hrun : tryReturn false offset t =
          .error (.misuse (.firstRecordNotSplitPoint offset)) t := by simp [tryReturn, hlast]
      exact .of_error hrun trivial
    | true =>
      rw [tryReturn_in_order true (fun _ => rfl) (by simp [hlast])]
      split <;> trivial
  | some last =>
    by_cases horder : last ≤ offset
    · rw [tryReturn_in_order atSplitPoint (by simp [hlast]) (by simpa [hlast] using horder)]
      split <;> trivial
    · have hrun : tryReturn atSplitPoint offset t =
          .error (.misuse (.recordsOutOfOrder offset last)) t := by
        simp [tryReturn, hlast, UInt64.not_le.1 horder]
      exact .of_error hrun trivial

end RangeTracker

namespace BlockReader

variable {r : BlockReader}

theorem failsWith_takeUp (t : FileTree) : Runs.FailsWith Error.Told (takeUp t) r := by
  unfold takeUp
  refine .bind (Runs.failsWith_of_ok rfl) fun _ r' _ => ?_
  split
  · exact Runs.failsWith_of_ok rfl
  · exact Runs.failsWith_of_ok rfl
  · intro e r' herror
    cases herror
    trivial

theorem failsWith_align : Runs.FailsWith Error.Told align r := by
  have hscan (r : BlockReader) : Runs.FailsWith Error.Told
      (onStream id (r.header.marker.advancePast r.scanSize)) r :=
    Runs.FailsWith.focus (SyncMarker.ends_scanFrom _ _ _ _).fails fun _ h => h
  intro e r' herror
  rw [align, Runs.get_bind] at herror
  split at herror
  · rw [Runs.modify_bind] at herror
    cases herror
  · have hseek (n : Nat) : onStream id (modify (InputStream.seek n)) r =
        .ok () { r with stream? := some (r.stream.seek n) } := rfl
    rw [Runs.bind_of_ok (hseek _), Runs.get_bind] at herror
    refine Runs.FailsWith.bind (hscan _) (fun _ _ _ => ?_) herror
    exact Runs.failsWith_of_ok rfl

theorem failsWith_openFile (t : FileTree) : Runs.FailsWith Error.Told (openFile t) r := by
  refine .bind (failsWith_takeUp t) fun _ _ _ => .bind ?_ fun _ _ _ => ?_
  · exact Runs.failsWith_focus fun _ => trivial
  · exact .bind (ends_chooseCodec.fails.imp fun _ h => h.told) fun _ _ _ => failsWith_align

/-- A property of what opening a file does not touch. -/
theorem keeps_align {P : BlockReader → Prop} (hstream : ∀ r stream?, P r → P { r with stream? })
    (hnext : ∀ r nextBlockStart, P r → P { r with nextBlockStart }) : Runs.Keeps P align := by
  have honStream {ε β : Type} (cause : ε → Error) (m : EStateM ε InputStream β) :
      Runs.Keeps P (onStream cause m) :=
    Runs.Keeps.focus (Q := fun _ => True) (fun _ _ => trivial) (fun _ _ => trivial)
      fun r s hr _ => hstream r s hr
  have hseek : Runs.Keeps P (do
      let r ← get
      onStream id (modify fun s => s.clear.seek r.nextBlockStart.toNat)) :=
    Runs.Keeps.get fun r hr => honStream _ _ hr
  unfold align
  refine .bind (fun _ hr => hr) fun r => ?_
  dsimp only
  split
  · exact .bind (.modify fun r hr => hnext r _ hr) fun _ => hseek
  · refine .bind (honStream _ _) fun _ => .bind (fun _ hr => hr) fun r => ?_
    exact .bind (honStream _ _) fun _ => .bind (.modify fun r hr => hnext r _ hr) fun _ => hseek

/-- Whoever has opened a file has chosen its codec. -/
theorem codec_of_openFile {t : FileTree} {r' : BlockReader} (h : openFile t r = .ok () r') :
    r'.codec?.isSome := by
  obtain ⟨_, r₁, -, h⟩ := bind_eq_ok_iff.1 h
  obtain ⟨_, r₂, -, h⟩ := bind_eq_ok_iff.1 h
  obtain ⟨_, r₃, hchoose, halign⟩ := bind_eq_ok_iff.1 h
  obtain ⟨codec, rfl⟩ := ends_chooseCodec.leads hchoose
  have hkeeps : Runs.Keeps (fun r => r.codec?.isSome) align :=
    keeps_align (fun _ _ h => h) fun _ _ h => h
  rw [← Runs.after_of_ok halign]
  exact hkeeps rfl

theorem after_tryReturn (atSplitPoint : Bool) (offset : UInt64) (t : RangeTracker) :
    Runs.after (RangeTracker.tryReturn atSplitPoint offset) t =
      (t.perform (.report atSplitPoint offset)).2 := by
  rw [Runs.after, RangeTracker.perform]
  cases RangeTracker.tryReturn atSplitPoint offset t <;> rfl

section Keeps

variable {P : BlockReader → Prop}

/-- Asking for a block does to the tracker what a call of it does. -/
theorem keeps_approach
    (htracker : ∀ r call, P r → P { r with tracker := (r.tracker.perform call).2 }) :
    Runs.Keeps P approach := by
  unfold approach
  refine .bind (fun _ hr => hr) fun r => .bind (.ensure _ _) fun _ => ?_
  split
  · exact .bind (.modify fun r hr => htracker r .markDone hr) fun _ => .pure _
  · intro r hr
    rw [Runs.after_focus, after_tryReturn]
    exact htracker r _ hr

theorem keeps_readBlock (hread : ∀ r stream? recordCount blockStart nextBlockStart, P r →
      P { r with stream?, recordCount, blockStart, nextBlockStart }) :
    Runs.Keeps P readBlock := by
  have honStream {ε β : Type} (cause : ε → Error) (m : EStateM ε InputStream β) :
      Runs.Keeps P (onStream cause m) :=
    Runs.Keeps.focus (Q := fun _ => True) (fun _ _ => trivial) (fun _ _ => trivial)
      fun r s hr _ => hread r s _ _ _ hr
  unfold readBlock
  refine .bind (fun _ hr => hr) fun r => .bind (honStream _ _) fun framing => ?_
  refine .bind (.modify fun r hr => hread r _ _ _ _ hr) fun _ => .bind (honStream _ _) fun _ => ?_
  exact .bind (.modify fun r hr => hread r _ _ _ _ hr) fun _ => .pure _

theorem keeps_unpack (hdecoder : ∀ r decoder?, P r → P { r with decoder? }) (b : Block) :
    Runs.Keeps P (unpack b) := by
  unfold unpack
  refine .bind (fun _ hr => hr) fun r => ?_
  split
  · exact .throw _
  · exact .bind (.check _) fun _ => .modify fun r hr => hdecoder r _ hr

theorem keeps_readNext
    (htracker : ∀ r call, P r → P { r with tracker := (r.tracker.perform call).2 })
    (hread : ∀ r stream? recordCount blockStart nextBlockStart, P r →
      P { r with stream?, recordCount, blockStart, nextBlockStart })
    (hdecoder : ∀ r decoder?, P r → P { r with decoder? }) : Runs.Keeps P readNext := by
  have happroach := keeps_approach htracker
  have hread := keeps_readBlock hread
  have hunpack (b : Block) := keeps_unpack hdecoder b
  intro r hr
  unfold Runs.after
  fun_induction readNext r with
  | case1 r e r' hrun => exact happroach.of_error hr hrun
  | case2 r r' hrun => exact happroach.of_ok hr hrun
  | case3 r r₁ hrun e r' hblock => exact hread.of_error (happroach.of_ok hr hrun) hblock
  | case4 r r₁ hrun b r₂ hblock hcount ih => exact ih (hread.of_ok (happroach.of_ok hr hrun) hblock)
  | case5 r r₁ hrun b r₂ hblock hcount e r' hlast =>
    exact (hunpack b).of_error (hread.of_ok (happroach.of_ok hr hrun) hblock) hlast
  | case6 r r₁ hrun b r₂ hblock hcount r' hlast =>
    exact (hunpack b).of_ok (hread.of_ok (happroach.of_ok hr hrun) hblock) hlast

end Keeps

theorem failsWith_approach : Runs.FailsWith Error.Told approach r := by
  unfold approach
  refine .bind (Runs.failsWith_of_ok rfl) fun _ _ _ => ?_
  refine .bind (Runs.failsWith_ensure trivial) fun _ _ _ => ?_
  split
  · exact Runs.failsWith_of_ok rfl
  · exact .focus (RangeTracker.ends_tryReturn _ _ _).fails fun _ h => h

theorem failsWith_unpack (h : r.codec?.isSome) (b : Block) :
    Runs.FailsWith Error.InBytes (unpack b) r := by
  obtain ⟨codec, hcodec⟩ := Option.isSome_iff_exists.1 h
  intro e r' herror
  rw [unpack_apply, hcodec] at herror
  simp only at herror
  split at herror <;> cases herror
  exact ⟨_, rfl⟩

/-- Reading the next block ends as it should once a codec has been chosen. -/
theorem failsWith_readNext (h : r.codec?.isSome) : Runs.FailsWith Error.Told readNext r := by
  have happroach : Runs.Keeps (fun r => r.codec?.isSome) approach := keeps_approach fun _ _ h => h
  have hread : Runs.Keeps (fun r => r.codec?.isSome) readBlock :=
    keeps_readBlock fun _ _ _ _ _ h => h
  intro e r' herror
  fun_induction readNext r with
  | case1 r e r' hrun =>
    cases herror
    exact failsWith_approach hrun
  | case2 => cases herror
  | case3 r r₁ hrun e r' hblock =>
    cases herror
    exact (failsWith_readBlock hblock).told
  | case4 r r₁ hrun b r₂ hblock hcount ih =>
    exact ih (hread.of_ok (happroach.of_ok h hrun) hblock) herror
  | case5 r r₁ hrun b r₂ hblock hcount e r' hunpack =>
    cases herror
    exact (failsWith_unpack (hread.of_ok (happroach.of_ok h hrun) hblock) b hunpack).told
  | case6 => cases herror

/-- A block that has been read is ready to be decoded. -/
theorem decoder_of_readNext {r' : BlockReader} (h : readNext r = .ok true r') :
    r'.decoder?.isSome := by
  fun_induction readNext r with
  | case1 => cases h
  | case2 => cases h
  | case3 => cases h
  | case4 _ _ _ _ _ _ _ ih => exact ih h
  | case5 => cases h
  | case6 r r₁ hrun b r₂ hblock hcount r' hunpack =>
    cases h
    obtain ⟨codec, data, -, -, rfl⟩ := unpack_eq_ok_iff.1 hunpack
    rfl

theorem readNext_closed (h : r.isOpen = false) :
    readNext r = .error (.misuse .readerClosed) r := by
  have happroach : approach r = .error (.misuse .readerClosed) r := by
    rw [approach, Runs.get_bind]
    simp [ensure, h]
  rw [readNext]
  split <;> rename_i hrun <;> cases happroach.symm.trans hrun
  rfl

end BlockReader

namespace ContainerReader

variable {α : Type} {r : ContainerReader α}

theorem keeps_onBlocks {β : Type} {P : ContainerReader α → Prop} {Q : BlockReader → Prop}
    {m : EStateM Error BlockReader β} (hm : Runs.Keeps Q m) (hpart : ∀ r, P r → Q r.blocks)
    (hput : ∀ r blocks, P r → Q blocks → P { r with blocks }) : Runs.Keeps P (onBlocks m) :=
  .focus hm hpart hput

/-- Moving on to a record changes the present block and the record, and nothing else of a
reader. -/
theorem keeps_advance {P : ContainerReader α → Prop} {Q : BlockReader → Prop}
    (hnext : Runs.Keeps Q BlockReader.readNext)
    (hdecoder : ∀ b decoder?, Q b → Q { b with decoder? }) (hpart : ∀ r, P r → Q r.blocks)
    (hput : ∀ r blocks, P r → Q blocks → P { r with blocks })
    (hrecord : ∀ r recordsLeft current?, P r → P { r with recordsLeft, current? }) :
    Runs.Keeps P advance := by
  have hdecode (decoding : Decoding α) : Runs.Keeps Q (BlockReader.decode decoding) := by
    unfold BlockReader.decode
    refine .bind (fun _ hb => hb) fun b => .bind (.check _) fun d => ?_
    exact .focus (Q := fun _ => True) (fun _ _ => trivial) (fun _ _ => trivial)
      fun b d hb _ => hdecoder b _ hb
  have hdecodeOne : Runs.Keeps P decodeOne := by
    unfold decodeOne
    refine .bind (fun _ hr => hr) fun r => .bind (.check _) fun _ => ?_
    split
    · exact .throw _
    · refine .bind (keeps_onBlocks (hdecode _) hpart hput) fun record => ?_
      exact .modify fun r hr => hrecord r _ _ hr
  have hrefill : Runs.Keeps P refill := by
    unfold refill
    refine .bind (fun _ hr => hr) fun r => ?_
    split
    · exact .pure _
    · refine .bind (keeps_onBlocks hnext hpart hput) fun found => ?_
      split
      · exact .bind (.modify fun r hr => hrecord r _ _ hr) fun _ => .pure _
      · exact .bind (.modify fun r hr => hrecord r _ _ hr) fun _ => .pure _
  unfold advance
  refine .bind (fun _ hr => hr) fun r => .bind (.ensure _ _) fun _ => .bind hrefill fun found => ?_
  split
  · exact .bind hdecodeOne fun _ => .pure _
  · exact .pure _

theorem decodeOne_of_noBlock (h : r.blocks.decoder? = none) :
    decodeOne r = .error (.misuse .noBlock) r := by
  have hblock : r.blocks.blockDecoder = .error (.misuse .noBlock) := by
    rw [BlockReader.blockDecoder, h]
  rw [decodeOne, Runs.get_bind, hblock]
  rfl

theorem decodeOne_of_undecided (h : r.decoding? = none) {d : Decoder}
    (hd : r.blocks.decoder? = some d) : decodeOne r = .error (.misuse .decoderMissing) r := by
  have hblock : r.blocks.blockDecoder = .ok d := by
    rw [BlockReader.blockDecoder, hd]
  rw [decodeOne, Runs.get_bind, Runs.check_bind hblock]
  simp only [h]
  rfl

theorem failsWith_decodeOne (h : r.decoding?.isSome) : Runs.FailsWith Error.Told decodeOne r := by
  obtain ⟨decoding, hdecoding⟩ := Option.isSome_iff_exists.1 h
  intro e r' herror
  cases hd : r.blocks.decoder? with
  | none =>
    rw [decodeOne_of_noBlock hd] at herror
    cases herror
    trivial
  | some d =>
    rw [decodeOne_apply hdecoding hd] at herror
    split at herror <;> cases herror
    trivial

theorem advance_of_not_started (h : r.started = false) :
    advance r = .error (.misuse (.notStarted .container)) r := by
  rw [advance, Runs.get_bind]
  simp [ensure, h]

structure Equipped (r : ContainerReader α) : Prop where
  started : r.started = true
  codec : r.blocks.codec?.isSome
  decoding : r.decoding?.isSome

theorem keeps_equipped : Runs.Keeps (Equipped (α := α)) advance := by
  have hnext : Runs.Keeps (fun b : BlockReader => b.codec?.isSome) BlockReader.readNext :=
    BlockReader.keeps_readNext (fun _ _ h => h) (fun _ _ _ _ _ h => h) fun _ _ h => h
  exact keeps_advance hnext (fun _ _ h => h) (fun _ h => h.codec)
    (fun _ _ h hcodec => ⟨h.started, hcodec, h.decoding⟩)
    fun _ _ _ h => ⟨h.started, h.codec, h.decoding⟩

/-- A reader with a codec and a decoder tells of every failure to move on. -/
theorem Equipped.failsWith_advance (h : Equipped r) : Runs.FailsWith Error.Told advance r := by
  have hdecode (r : ContainerReader α) (hdecoding : r.decoding?.isSome) :
      Runs.FailsWith Error.Told (decodeOne >>= fun _ => pure true) r :=
    (failsWith_decodeOne hdecoding).bind fun _ _ _ => Runs.failsWith_of_ok rfl
  intro e r' herror
  by_cases hleft : r.recordsLeft = 0
  · rw [advance_idle h.started hleft] at herror
    cases hnext : BlockReader.readNext r.blocks with
    | error e blocks =>
      rw [hnext] at herror
      cases herror
      exact BlockReader.failsWith_readNext h.codec hnext
    | ok found blocks =>
      rw [hnext] at herror
      cases found with
      | false => cases herror
      | true => exact hdecode _ (by exact h.decoding) herror
  · rw [advance_busy h.started hleft] at herror
    exact hdecode r h.decoding herror

theorem current_of_advance {r' : ContainerReader α} (h : advance r = .ok true r') :
    r'.current?.isSome := by
  obtain ⟨_, _, _, h⟩ := bind_eq_ok_iff.1 h
  obtain ⟨_, _, _, h⟩ := bind_eq_ok_iff.1 h
  obtain ⟨found, r₁, _, h⟩ := bind_eq_ok_iff.1 h
  cases found with
  | false => cases h
  | true =>
    obtain ⟨_, r₂, hdecode, h⟩ := bind_eq_ok_iff.1 h
    cases h
    cases hd : r₁.blocks.decoder? with
    | none => cases (decodeOne_of_noBlock hd).symm.trans hdecode
    | some d =>
      cases hdecoding : r₁.decoding? with
      | none => cases (decodeOne_of_undecided hdecoding hd).symm.trans hdecode
      | some decoding =>
        rw [decodeOne_apply hdecoding hd] at hdecode
        split at hdecode <;> cases hdecode
        rfl

/-- A start came to grief while the file was open, and the reader is left without a decoder. -/
structure Stranded (r : ContainerReader α) : Prop where
  started : r.started = true
  decoding : r.decoding? = none
  count : r.recordsLeft = 0

/-- No record can be had from a stranded reader, and what it tells leaves it stranded. -/
theorem Stranded.advance (h : Stranded r) :
    (∀ r', ContainerReader.advance r ≠ .ok true r') ∧
      (Runs.FailsWith Error.Told ContainerReader.advance r →
        Stranded (Runs.after ContainerReader.advance r)) := by
  have hrun := advance_idle h.started h.count
  cases hnext : BlockReader.readNext r.blocks with
  | error e blocks =>
    rw [hnext] at hrun
    rw [Runs.after_of_error hrun]
    refine ⟨fun r' hmoved => ?_, fun _ => ⟨h.started, h.decoding, h.count⟩⟩
    cases hrun.symm.trans hmoved
  | ok found blocks =>
    cases found with
    | false =>
      rw [hnext] at hrun
      rw [Runs.after_of_ok hrun]
      refine ⟨fun r' hmoved => ?_, fun _ => ⟨h.started, h.decoding, h.count⟩⟩
      cases hrun.symm.trans hmoved
    | true =>
      obtain ⟨d, hd⟩ := Option.isSome_iff_exists.1 (BlockReader.decoder_of_readNext hnext)
      have hmissing := decodeOne_of_undecided
        (r := { r with blocks, recordsLeft := blocks.recordCount.toInt.toNat }) h.decoding hd
      rw [hnext] at hrun
      replace hrun := hrun.trans (Runs.bind_of_error hmissing)
      refine ⟨fun r' hmoved => ?_, fun htold => absurd (htold hrun) id⟩
      cases hrun.symm.trans hmoved

inductive Call where
  | start
  | advance
  | current
  | split (fraction : UInt64)
  | progress
  | close
deriving DecidableEq, Repr

inductive Answer (α : Type) where
  | moved (found : Bool)
  | record (record : α)
  | split (source? : Option Source)
  | progress (consumed : Float)
  | closed

variable [RecordType α] {t : FileTree}

def perform (t : FileTree) : Call → Step α (Answer α)
  | .start => .moved <$> start t
  | .advance => .moved <$> ContainerReader.advance
  | .current => fun r => match r.current with
    | .ok record => .ok (.record record) r
    | .error e => .error e r
  | .split fraction => fun r => .ok (.split (trySplit fraction r).1) (trySplit fraction r).2
  | .progress => do return .progress ((← get).fractionConsumed Float)
  | .close => do
    modify close
    return .closed

/-- The reader has been brought to this state by the calls, and each of them either succeeded or
told of its failure. -/
inductive Lives (t : FileTree) (r₀ : ContainerReader α) : List Call → ContainerReader α → Prop where
  | created : Lives t r₀ [] r₀
  | called {calls : List Call} {r : ContainerReader α} {c : Call} (before : Lives t r₀ calls r)
      (told : Runs.FailsWith Error.Told (perform t c) r) :
      Lives t r₀ (calls ++ [c]) (Runs.after (perform t c) r)

def Launched (t : FileTree) (r₀ : ContainerReader α) (calls : List Call) : Prop :=
  ∃ before rest r r', calls = before ++ .start :: rest ∧ Lives t r₀ before r ∧
    begin t r = .ok () r'

/-- One of the calls failed to open the file properly but left it open, and the reader has not
been closed since. -/
def Aground (t : FileTree) (r₀ : ContainerReader α) (calls : List Call) : Prop :=
  ∃ before rest r e r', calls = before ++ .start :: rest ∧ .close ∉ rest ∧ Lives t r₀ before r ∧
    r.started = false ∧ begin t r = .error e r' ∧ r'.blocks.isOpen = true

variable {r₀ : ContainerReader α} {calls : List Call}

theorem Launched.later (h : Launched t r₀ calls) (c : Call) : Launched t r₀ (calls ++ [c]) := by
  obtain ⟨before, rest, r, r', rfl, hlives, hbegin⟩ := h
  exact ⟨before, rest ++ [c], r, r', by simp, hlives, hbegin⟩

theorem Aground.later (h : Aground t r₀ calls) {c : Call} (hc : c ≠ .close) :
    Aground t r₀ (calls ++ [c]) := by
  obtain ⟨before, rest, r, e, r', rfl, hrest, hlives, hstarted, hbegin, hopen⟩ := h
  refine ⟨before, rest ++ [c], r, e, r', by simp, ?_, hlives, hstarted, hbegin, hopen⟩
  simpa [hrest] using hc.symm

inductive Stage (t : FileTree) (r₀ : ContainerReader α) (calls : List Call)
    (r : ContainerReader α) : Prop where
  | fresh (not_started : r.started = false) (decoding : r.decoding? = none)
      (count : r.recordsLeft = 0)
  | ready (equipped : Equipped r) (launched : Launched t r₀ calls)
  | stranded (stranded : Stranded r) (aground : r.blocks.isOpen = true → Aground t r₀ calls)

theorem failsWith_begin : Runs.FailsWith Error.Told (begin t) r := by
  unfold begin
  refine .bind (Runs.failsWith_of_ok rfl) fun _ _ _ => ?_
  refine .bind (Runs.failsWith_ensure trivial) fun _ _ _ => ?_
  refine .bind (Runs.failsWith_of_ok rfl) fun _ _ _ => ?_
  refine .bind (.focus (BlockReader.failsWith_openFile t) fun _ h => h) fun _ _ _ => ?_
  refine .bind (Runs.failsWith_of_ok rfl) fun _ _ _ => ?_
  exact .bind (Runs.failsWith_check fun _ => trivial) fun _ _ _ => Runs.failsWith_of_ok rfl

theorem begin_of_started (h : r.started = true) :
    begin t r = .error (.misuse (.startedTwice .container)) r := by
  rw [begin, Runs.get_bind]
  simp [ensure, h]

/-- Opening a file leaves a reader with all that it needs, or without a decoder. -/
theorem begin_cases (hstarted : r.started = false) (hdecoding : r.decoding? = none)
    (hcount : r.recordsLeft = 0) :
    (∃ r', begin t r = .ok () r' ∧ Equipped r') ∨
      ∃ e r', begin t r = .error e r' ∧ Stranded r' := by
  have hrun := begin_apply (t := t) hstarted
  cases hopen : BlockReader.openFile t r.blocks with
  | error e blocks =>
    rw [hopen] at hrun
    exact .inr ⟨_, _, hrun, rfl, hdecoding, hcount⟩
  | ok u blocks =>
    rw [hopen] at hrun
    simp only at hrun
    cases hdecide : RecordType.decoding (α := α) r.source.binding blocks.header with
    | error e =>
      rw [hdecide] at hrun
      exact .inr ⟨_, _, hrun, rfl, hdecoding, hcount⟩
    | ok decoding =>
      rw [hdecide] at hrun
      exact .inl ⟨_, hrun, rfl, BlockReader.codec_of_openFile hopen, rfl⟩

/-- Whatever the stage, a file that is opened is opened properly. -/
theorem Stage.begin_ok (h : Stage t r₀ calls r) {r' : ContainerReader α}
    (hbegin : begin t r = .ok () r') : Equipped r' := by
  cases h with
  | fresh hstarted hdecoding hcount =>
    rcases begin_cases (t := t) hstarted hdecoding hcount with ⟨_, hok, hr'⟩ | ⟨e, _, herror, -⟩
    · cases hbegin.symm.trans hok
      exact hr'
    · cases hbegin.symm.trans herror
  | ready hequipped => cases hbegin.symm.trans (begin_of_started hequipped.started)
  | stranded hstranded => cases hbegin.symm.trans (begin_of_started hstranded.started)

/-- Only moving on can end otherwise than it should, and only on a reader that is aground. -/
theorem Stage.told (h : Stage t r₀ calls r) (c : Call) :
    Runs.FailsWith Error.Told (perform t c) r ∨ c = .advance ∧ Aground t r₀ calls := by
  cases c with
  | start =>
    refine .inl (Runs.failsWith_map_iff.2 ?_)
    rw [start_eq_begin]
    refine failsWith_begin.bind fun _ r' hbegin => ?_
    exact (h.begin_ok hbegin).failsWith_advance
  | advance =>
    cases h with
    | fresh hstarted =>
      refine .inl (Runs.failsWith_map_iff.2 fun e r' herror => ?_)
      cases (advance_of_not_started hstarted).symm.trans herror
      trivial
    | ready hequipped => exact .inl (Runs.failsWith_map_iff.2 hequipped.failsWith_advance)
    | stranded hstranded haground =>
      cases hopen : r.blocks.isOpen with
      | true => exact .inr ⟨rfl, haground hopen⟩
      | false =>
        refine .inl (Runs.failsWith_map_iff.2 fun e r' herror => ?_)
        rw [advance_idle hstranded.started hstranded.count,
          BlockReader.readNext_closed hopen] at herror
        cases herror
        trivial
  | current =>
    refine .inl fun e r' herror => ?_
    simp only [ContainerReader.perform, current] at herror
    split at herror
    · cases herror
    · next hnone =>
      split at hnone <;> cases hnone
      cases herror
      trivial
  | split fraction => exact .inl (Runs.failsWith_of_ok rfl)
  | progress => exact .inl (Runs.failsWith_of_ok rfl)
  | close => exact .inl (Runs.failsWith_of_ok rfl)

/-- A reader that has moved to a record has the record, of a file that was opened properly. -/
theorem Stage.moved (h : Stage t r₀ calls r) (hlives : Lives t r₀ calls r) {c : Call}
    {r' : ContainerReader α} (hmoved : perform t c r = .ok (.moved true) r') :
    r'.current?.isSome ∧ Launched t r₀ (calls ++ [c]) := by
  cases c with
  | start =>
    obtain ⟨found, hrun, hfound⟩ := Runs.map_eq_ok_iff.1 hmoved
    cases hfound
    rw [start_eq_begin] at hrun
    obtain ⟨_, r₁, hbegin, hadvance⟩ := bind_eq_ok_iff.1 hrun
    exact ⟨current_of_advance hadvance, calls, [], r, r₁, rfl, hlives, hbegin⟩
  | advance =>
    obtain ⟨found, hrun, hfound⟩ := Runs.map_eq_ok_iff.1 hmoved
    cases hfound
    refine ⟨current_of_advance hrun, ?_⟩
    cases h with
    | fresh hstarted => cases (advance_of_not_started hstarted).symm.trans hrun
    | ready _ hlaunched => exact hlaunched.later _
    | stranded hstranded => exact absurd hrun (hstranded.advance.1 r')
  | current =>
    simp only [ContainerReader.perform] at hmoved
    split at hmoved <;> cases hmoved
  | split fraction => cases hmoved
  | progress => cases hmoved
  | close => cases hmoved

theorem Stage.later (h : Stage t r₀ calls r) {c : Call} (hc : c ≠ .close) :
    Stage t r₀ (calls ++ [c]) r := by
  cases h with
  | fresh hstarted hdecoding hcount => exact .fresh hstarted hdecoding hcount
  | ready hequipped hlaunched => exact .ready hequipped (hlaunched.later c)
  | stranded hstranded haground =>
    exact .stranded hstranded fun hopen => (haground hopen).later hc

theorem Stage.cutAt (h : Stage t r₀ calls r) (cut : UInt64) : Stage t r₀ calls (r.cutAt cut) := by
  cases h with
  | fresh hstarted hdecoding hcount => exact .fresh hstarted hdecoding hcount
  | ready hequipped hlaunched =>
    exact .ready ⟨hequipped.started, hequipped.codec, hequipped.decoding⟩ hlaunched
  | stranded hstranded haground =>
    exact .stranded ⟨hstranded.started, hstranded.decoding, hstranded.count⟩ haground

/-- A start that fails while the file is open leaves the reader aground. -/
theorem Stage.start (h : Stage t r₀ calls r) (hlives : Lives t r₀ calls r) :
    Stage t r₀ (calls ++ [.start]) (Runs.after (ContainerReader.start t) r) := by
  rw [start_eq_begin]
  cases hbegin : begin t r with
  | ok u r' =>
    rw [Runs.after_bind_of_ok hbegin]
    exact .ready (keeps_equipped (h.begin_ok hbegin)) ⟨calls, [], r, r', rfl, hlives, hbegin⟩
  | error e r' =>
    rw [Runs.after_of_error (Runs.bind_of_error hbegin)]
    cases h with
    | fresh hstarted hdecoding hcount =>
      rcases begin_cases (t := t) hstarted hdecoding hcount with ⟨_, hok, -⟩ | ⟨_, _, herror, hr'⟩
      · cases hbegin.symm.trans hok
      · cases hbegin.symm.trans herror
        refine .stranded hr' fun hopen => ?_
        exact ⟨calls, [], r, e, r', rfl, List.not_mem_nil, hlives, hstarted, hbegin, hopen⟩
    | ready hequipped hlaunched =>
      cases hbegin.symm.trans (begin_of_started hequipped.started)
      exact .ready hequipped (hlaunched.later _)
    | stranded hstranded haground =>
      cases hbegin.symm.trans (begin_of_started hstranded.started)
      exact .stranded hstranded fun hopen => (haground hopen).later (by decide)

theorem Stage.advance (h : Stage t r₀ calls r)
    (htold : Runs.FailsWith Error.Told ContainerReader.advance r) :
    Stage t r₀ (calls ++ [.advance]) (Runs.after ContainerReader.advance r) := by
  cases h with
  | fresh hstarted hdecoding hcount =>
    rw [Runs.after_of_error (advance_of_not_started hstarted)]
    exact .fresh hstarted hdecoding hcount
  | ready hequipped hlaunched => exact .ready (keeps_equipped hequipped) (hlaunched.later _)
  | stranded hstranded haground =>
    refine .stranded (hstranded.advance.2 htold) fun hopen => ?_
    cases hbefore : r.blocks.isOpen with
    | true => exact (haground hbefore).later (by decide)
    | false =>
      have hrun := advance_idle hstranded.started hstranded.count
      rw [BlockReader.readNext_closed hbefore] at hrun
      rw [Runs.after_of_error hrun] at hopen
      exact absurd (hbefore.symm.trans hopen) Bool.false_ne_true

theorem Stage.perform (h : Stage t r₀ calls r) (hlives : Lives t r₀ calls r) {c : Call}
    (htold : Runs.FailsWith Error.Told (perform t c) r) :
    Stage t r₀ (calls ++ [c]) (Runs.after (ContainerReader.perform t c) r) := by
  cases c with
  | start =>
    rw [ContainerReader.perform, Runs.after_map]
    exact h.start hlives
  | advance =>
    rw [ContainerReader.perform, Runs.after_map]
    exact h.advance (Runs.failsWith_map_iff.1 htold)
  | current =>
    have hafter : Runs.after (ContainerReader.perform t .current) r = r := by
      simp only [Runs.after, ContainerReader.perform]
      cases r.current <;> rfl
    rw [hafter]
    exact h.later (by decide)
  | split fraction =>
    exact trySplit_keeps (fun _ cut hr => hr.cutAt cut) fraction (h.later (by simp))
  | progress => exact h.later (by decide)
  | close =>
    cases h with
    | fresh hstarted hdecoding hcount => exact .fresh hstarted hdecoding hcount
    | ready hequipped hlaunched =>
      exact .ready ⟨hequipped.started, hequipped.codec, hequipped.decoding⟩ (hlaunched.later _)
    | stranded hstranded =>
      refine .stranded ⟨hstranded.started, hstranded.decoding, hstranded.count⟩ fun hopen => ?_
      cases hopen

theorem stage_of_lives (hfresh : Stage t r₀ [] r₀) (h : Lives t r₀ calls r) :
    Stage t r₀ calls r := by
  induction h with
  | created => exact hfresh
  | called hbefore htold ih => exact ih.perform hbefore htold

omit [RecordType α] in
theorem fresh_of_create {source : Source} {scanSize : UInt64}
    (h : create t source scanSize = .ok r) :
    r.started = false ∧ r.decoding? = none ∧ r.recordsLeft = 0 := by
  unfold create at h
  cases hblocks : BlockReader.create t source.path source.start source.stop scanSize.toNat with
  | error e =>
    rw [hblocks] at h
    cases h
  | ok blocks =>
    rw [hblocks] at h
    cases h
    exact ⟨rfl, rfl, rfl⟩

/-- Whatever is done with a reader, each call either succeeds or tells of its failure, save that
moving on may not once the reader is aground. It stands at a record only where a file was opened
properly. -/
theorem told_or_aground {source : Source} {scanSize : UInt64}
    (hcreate : create t source scanSize = .ok r₀) (hlives : Lives t r₀ calls r) (c : Call) :
    (Runs.FailsWith Error.Told (perform t c) r ∨ c = .advance ∧ Aground t r₀ calls) ∧
      ∀ r', perform t c r = .ok (.moved true) r' →
        r'.current?.isSome ∧ Launched t r₀ (calls ++ [c]) := by
  obtain ⟨hstarted, hdecoding, hcount⟩ := fresh_of_create hcreate
  have hstage := stage_of_lives (.fresh hstarted hdecoding hcount) hlives
  exact ⟨hstage.told c, fun r' hmoved => hstage.moved hlives hmoved⟩

def zipped : FileTree where
  entries := [(["birds"], .file 0 { Plan.birds with
    header := { marker := .counting, metadata := .ofList [(Header.codecKey, "zip")] } }.content)]
  made := 1

def garbled : FileTree where
  entries := [(["birds"], .file 0 { Plan.birds with
    header := { marker := .counting, metadata := .ofList [(Header.schemaKey, "!")] } }.content)]
  made := 1

/-- Once it has been closed, the reader of the file with the unknown codec tells of its failures
again. -/
theorem told_of_zipped : ∃ r₀ r : ContainerReader Bird,
    create zipped Plan.birdsSource 4 = .ok r₀ ∧ Lives zipped r₀ [.start, .close] r ∧
      Runs.FailsWith Error.Told (perform zipped .advance) r := by
  have hcreate : create (α := Bird) zipped Plan.birdsSource 4 = .ok _ := create_of_entry rfl 4
  have hstarts := (told_or_aground hcreate .created .start).1.resolve_right (by simp)
  have hlives := Lives.called (.called .created hstarts) (c := .close) (Runs.failsWith_of_ok rfl)
  refine ⟨_, _, hcreate, hlives, (told_or_aground hcreate hlives .advance).1.resolve_right ?_⟩
  rintro ⟨-, before, rest, r, e, r', hcalls, hrest, -⟩
  rcases before with _ | ⟨_, _ | ⟨_, before⟩⟩ <;> simp at hcalls
  simp [← hcalls] at hrest

/-- Until then the codec of the one file and the decoder of the other are used though there are
none. -/
theorem untold_of_zipped :
    (∃ r₀ r r' : ContainerReader Bird, create zipped Plan.birdsSource 4 = .ok r₀ ∧
      start zipped r₀ = .error (.configuration (.codecUnknown "zip")) r ∧
      perform zipped .advance r = .error (.misuse .codecMissing) r') ∧
    ∃ r₀ r r' : ContainerReader Bird, create garbled Plan.birdsSource 4 = .ok r₀ ∧
      start garbled r₀ = .error (.configuration .schemaSyntax) r ∧
      perform garbled .advance r = .error (.misuse .decoderMissing) r' := by
  refine ⟨⟨_, _, _, create_of_entry rfl 4, Runs.eq_error_iff.2 ?_, Runs.eq_error_iff.2 ?_⟩,
    _, _, _, create_of_entry rfl 4, Runs.eq_error_iff.2 ?_, Runs.eq_error_iff.2 ?_⟩
  all_goals decide +kernel

end ContainerReader
end BlockContainer
