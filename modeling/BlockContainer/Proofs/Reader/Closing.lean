import BlockContainer.Proofs.Reader.Calls
import BlockContainer.Proofs.Reader.Exhausted

/-! # What a reader returns behind the close

Closing takes the file from a reader of one file, but leaves it the block that it is decoding.
So calls behind the close go on with the records that are left of the block, and only when
there is none left does the reader refuse to move on. The reader of a pattern gives up its file
with all that it holds of it.
-/
namespace BlockContainer

variable {α : Type}

/-- What so many attempts to decode a record bring, when no more than `left` are to be brought.
An attempt that fails brings none and moves the decoder all the same. -/
def Decoder.fetch (decoding : Decoding α) : (left attempts : Nat) → Decoder → List α
  | 0, _, _ | _, 0, _ => []
  | left + 1, n + 1, d => match decoding d with
    | .ok x d => x :: fetch decoding left n d
    | .error _ d => fetch decoding (left + 1) n d

theorem Decoder.fetch_zero (decoding : Decoding α) (left : Nat) (d : Decoder) :
    d.fetch decoding left 0 = [] := by
  cases left <;> rfl

namespace ContainerReader

def held (r : ContainerReader α) (n : Nat) : List α :=
  match r.decoding?, r.blocks.decoder? with
  | some decoding, some d => d.fetch decoding r.recordsLeft n
  | _, _ => []

variable {r : ContainerReader α} {decoding : Decoding α} {d : Decoder}

theorem held_eq_fetch (hdecoding : r.decoding? = some decoding) (hd : r.blocks.decoder? = some d)
    (n : Nat) : r.held n = d.fetch decoding r.recordsLeft n := by
  rw [held, hdecoding, hd]

theorem held_succ (hdecoding : r.decoding? = some decoding) (hd : r.blocks.decoder? = some d)
    (hleft : r.recordsLeft ≠ 0) (n : Nat) : r.held (1 + n) = match decoding d with
      | .ok x d => x :: d.fetch decoding (r.recordsLeft - 1) n
      | .error _ d => d.fetch decoding r.recordsLeft n := by
  obtain ⟨left, hleft⟩ := Nat.exists_eq_succ_of_ne_zero hleft
  rw [held_eq_fetch hdecoding hd, hleft, Nat.add_comm, Decoder.fetch]
  rfl

theorem held_of_none (h : r.recordsLeft = 0 ∨ r.decoding? = none ∨ r.blocks.decoder? = none)
    (n : Nat) : r.held n = [] := by
  rw [held]
  split
  · next hdecoding hd =>
    rw [h.resolve_right (by simp [hdecoding, hd]), Decoder.fetch]
  · rfl

structure Shut (r : ContainerReader α) : Prop where
  started : r.started = true
  closed : r.blocks.isOpen = false

theorem Shut.advance_of_none (h : r.Shut) (hleft : r.recordsLeft = 0) :
    advance r = .error (.misuse .readerClosed) r := by
  rw [advance_idle h.started hleft, BlockReader.readNext_closed h.closed]

theorem decodeOne_of_unready (h : r.decoding? = none ∨ r.blocks.decoder? = none) :
    ∃ e, decodeOne r = .error e r := by
  cases hd : r.blocks.decoder? with
  | none => exact ⟨_, decodeOne_of_noBlock hd⟩
  | some d => exact ⟨_, decodeOne_of_undecided (h.resolve_right (by simp [hd])) hd⟩

end ContainerReader

namespace Reader

open ContainerReader (Call Answer)

def started : Reader α → Bool
  | container r => r.started
  | pattern r => r.started

def held (n : Nat) : Reader α → List α
  | container r => r.held n
  | pattern r => (r.reader?.map (ContainerReader.held · n)).getD []

theorem held_zero (r : Reader α) : r.held 0 = [] := by
  have hnone (r : ContainerReader α) : r.held 0 = [] := by
    rw [ContainerReader.held]
    split
    · exact Decoder.fetch_zero _ _ _
    · rfl
  cases r with
  | container r => exact hnone r
  | pattern r =>
    rw [held]
    cases r.reader? with
    | none => rfl
    | some reader => exact hnone reader

def Shut : Reader α → Prop
  | container r => r.Shut
  | pattern r => r.started = true ∧ r.done = true ∧ r.reader? = none

theorem shut_close {r : Reader α} (h : r.started = true) : r.close.Shut := by
  cases r with
  | container r => exact ⟨h, rfl⟩
  | pattern r => exact ⟨h, rfl, rfl⟩

variable [RecordType α]

def perform (t : FileTree) : Call → EStateM Error (Reader α) (Answer α)
  | .start => .moved <$> start t
  | .advance => .moved <$> advance t
  | .current => fun r => match r.current with
    | .ok record => .ok (.record record) r
    | .error e => .error e r
  | .split fraction => fun r => .ok (.split (trySplit fraction r).1) (trySplit fraction r).2
  | .progress => fun r => .ok (.progress (r.fractionConsumed Float)) r
  | .close => fun r => .ok .closed r.close

def obtained (t : FileTree) (c : Call) (r : Reader α) : List α :=
  match perform t c r with
  | .ok (.moved true) r' => r'.current.toOption.toList
  | _ => []

def afterAll (t : FileTree) (calls : List Call) (r : Reader α) : Reader α :=
  calls.foldl (fun r c => Runs.after (perform t c) r) r

def obtainedAll (t : FileTree) : List Call → Reader α → List α
  | [], _ => []
  | c :: rest, r => obtained t c r ++ obtainedAll t rest (Runs.after (perform t c) r)

/-- Calls of a closed reader, so many of them to move on, moved to these records and leave this
reader. -/
structure Continues (n : Nat) (r : Reader α) (records : List α) (r' : Reader α) : Prop where
  shut : r'.Shut
  held_eq : ∀ m, r.held (n + m) = records ++ r'.held m
  count : records.length + r'.recordsLeft = r.recordsLeft
  none_current : records = [] → r.current = .error (.misuse .noCurrentRecord) →
    r'.current = .error (.misuse .noCurrentRecord)

variable {t : FileTree} {n n' : Nat} {r r' r'' : Reader α} {records records' : List α}

omit [RecordType α] in
/-- A call that leaves the block in memory alone. -/
theorem Continues.of_same (h : r'.Shut) (hheld : ∀ m, r.held m = r'.held m)
    (hleft : r'.recordsLeft = r.recordsLeft)
    (hnone : r.current = .error (.misuse .noCurrentRecord) →
      r'.current = .error (.misuse .noCurrentRecord)) : Continues 0 r [] r' where
  shut := h
  held_eq := fun m => by rw [Nat.zero_add, List.nil_append, hheld]
  count := by rw [List.length_nil, Nat.zero_add, hleft]
  none_current := fun _ => hnone

omit [RecordType α] in
theorem Continues.refl (h : r.Shut) : Continues 0 r [] r :=
  .of_same h (fun _ => rfl) rfl id

omit [RecordType α] in
/-- A call that fails to move on where no record is to be had. -/
theorem Continues.of_empty (h : r.Shut) (hnone : ∀ m, r.held m = []) : Continues n r [] r :=
  { shut := h
    held_eq := fun m => by rw [hnone, hnone, List.append_nil]
    count := Nat.zero_add _
    none_current := fun _ hcurrent => hcurrent }

omit [RecordType α] in
theorem Continues.trans (h : Continues n r records r') (h' : Continues n' r' records' r'') :
    Continues (n + n') r (records ++ records') r'' where
  shut := h'.shut
  held_eq := fun m => by rw [Nat.add_assoc, h.held_eq, h'.held_eq, List.append_assoc]
  count := by
    have := h.count
    have := h'.count
    rw [List.length_append]
    omega
  none_current := by
    intro hnone hcurrent
    obtain ⟨hfirst, hsecond⟩ := List.append_eq_nil_iff.1 hnone
    exact h'.none_current hsecond (h.none_current hfirst hcurrent)

omit [RecordType α] in
theorem step_container_error {β : Type} {m : ContainerReader.Step α β} {e : Error}
    {reader reader' : ContainerReader α} (h : m reader = .error e reader')
    (onPattern : PatternReader.Step α β) :
    step m onPattern (.container reader) = .error e (.container reader') := by
  simp only [step, h]

omit [RecordType α] in
theorem step_pattern_error {β : Type} {m : PatternReader.Step α β} {e : Error}
    {reader reader' : PatternReader α} (h : m reader = .error e reader')
    (onContainer : ContainerReader.Step α β) :
    step onContainer m (.pattern reader) = .error e (.pattern reader') := by
  simp only [step, h]

theorem continues_of_error {c : Call} {e : Error} (hrun : perform t c r = .error e r')
    (h : Continues n r [] r') : Continues n r (obtained t c r) (Runs.after (perform t c) r) := by
  rwa [obtained, Runs.after_of_error hrun, hrun]

theorem continues_of_moved {c : Call} (hrun : perform t c r = .ok (.moved true) r')
    (h : Continues n r r'.current.toOption.toList r') :
    Continues n r (obtained t c r) (Runs.after (perform t c) r) := by
  rwa [obtained, Runs.after_of_ok hrun, hrun]

omit [RecordType α] in
theorem Continues.cutAt {r' : ContainerReader α} (h : Continues 0 r [] (.container r'))
    (cut : UInt64) : Continues 0 r [] (.container (r'.cutAt cut)) := by
  have hcut : Continues 0 (.container r') [] (.container (r'.cutAt cut)) :=
    .of_same ⟨h.shut.started, h.shut.closed⟩ (fun _ => rfl) rfl id
  exact h.trans hcut

/-- Moving on with a closed file decodes another record of the block in memory, or fails. -/
theorem continues_advance {r : ContainerReader α} (h : r.Shut) :
    Continues 1 (.container r) (obtained t .advance (.container r))
      (Runs.after (perform t .advance) (.container r)) := by
  have herror {e : Error} {r' : ContainerReader α} (hrun : r.advance = .error e r') :
      perform t .advance (.container r) = .error e (.container r') :=
    Runs.map_of_error _ (step_container_error hrun _)
  by_cases hleft : r.recordsLeft = 0
  · exact continues_of_error (herror (h.advance_of_none hleft))
      (.of_empty h (ContainerReader.held_of_none (.inl hleft)))
  · have hbusy := ContainerReader.advance_busy h.started hleft
    by_cases hready : r.decoding? = none ∨ r.blocks.decoder? = none
    · obtain ⟨e, hdecode⟩ := ContainerReader.decodeOne_of_unready hready
      exact continues_of_error (herror (hbusy.trans (Runs.bind_of_error hdecode)))
        (.of_empty h (ContainerReader.held_of_none (.inr hready)))
    · obtain ⟨hdecoding, hd⟩ := not_or.1 hready
      obtain ⟨decoding, hdecoding⟩ := Option.ne_none_iff_exists'.1 hdecoding
      obtain ⟨d, hd⟩ := Option.ne_none_iff_exists'.1 hd
      have hdecode := ContainerReader.decodeOne_apply hdecoding hd
      have hheld := ContainerReader.held_succ hdecoding hd hleft
      cases hrun : decoding d with
      | error e d' =>
        rw [hrun] at hdecode hheld
        let moved : ContainerReader α := { r with blocks := { r.blocks with decoder? := some d' } }
        have hmoved (m : Nat) : moved.held m = d'.fetch decoding r.recordsLeft m :=
          ContainerReader.held_eq_fetch (r := moved) hdecoding rfl m
        exact continues_of_error (herror (hbusy.trans (Runs.bind_of_error hdecode)))
          ⟨⟨h.started, h.closed⟩, fun m => (hheld m).trans (hmoved m).symm, Nat.zero_add _,
            fun _ hcurrent => hcurrent⟩
      | ok x d' =>
        rw [hrun] at hdecode hheld
        have hadvance := hbusy.trans (Runs.bind_of_ok hdecode)
        let moved : ContainerReader α := { r with
          blocks := { r.blocks with decoder? := some d' }
          current? := some x, recordsLeft := r.recordsLeft - 1 }
        have hmoved (m : Nat) : moved.held m = d'.fetch decoding (r.recordsLeft - 1) m :=
          ContainerReader.held_eq_fetch (r := moved) hdecoding rfl m
        refine continues_of_moved (Runs.map_of_ok _ (step_container hadvance _))
          ⟨⟨h.started, h.closed⟩, fun m => (hheld m).trans (congrArg _ (hmoved m).symm), ?_,
            fun hnone => ?_⟩
        · change 1 + (r.recordsLeft - 1) = r.recordsLeft
          omega
        · cases hnone

theorem continues_current (h : r.Shut) :
    Continues 0 r (obtained t .current r) (Runs.after (perform t .current) r) := by
  cases hcurrent : r.current with
  | error e =>
    have hrun : perform t .current r = .error e r := by simp only [perform, hcurrent]
    exact continues_of_error hrun (.refl h)
  | ok x =>
    have hrun : perform t .current r = .ok (.record x) r := by simp only [perform, hcurrent]
    rw [obtained, Runs.after_of_ok hrun, hrun]
    exact .refl h

/-- No call of a closed reader brings anything but records of the block in memory. -/
theorem continues_perform (h : r.Shut) (c : Call) :
    Continues ([c].count .advance) r (obtained t c r) (Runs.after (perform t c) r) := by
  cases r with
  | container r =>
    cases c with
    | advance => exact continues_advance h
    | start =>
      have hrun : r.start t = .error (.misuse (.startedTwice .container)) r := by
        rw [ContainerReader.start_eq_begin]
        exact Runs.bind_of_error (ContainerReader.begin_of_started h.started)
      exact continues_of_error (Runs.map_of_error _ (step_container_error hrun _)) (.refl h)
    | current => exact continues_current h
    | split fraction =>
      exact ContainerReader.trySplit_keeps
        (P := fun r' => Continues 0 (.container r) [] (.container r'))
        (fun _ cut hr' => hr'.cutAt cut) fraction (.refl h)
    | progress => exact .refl h
    | close => exact .of_same ⟨h.started, rfl⟩ (fun _ => rfl) rfl fun _ => rfl
  | pattern r =>
    obtain ⟨hstarted, hdone, hreader⟩ := id h
    cases c with
    | start =>
      have hrun := PatternReader.refused_of_misplaced (t := t) (c := .start) hstarted
      exact continues_of_error (Runs.map_of_error _ (step_pattern_error hrun _)) (.refl h)
    | advance =>
      have hrun := PatternReader.advance_of_over (t := t) hstarted (.inl hdone)
      have hmoved : perform t .advance (.pattern r) = .ok (.moved false) (.pattern r) :=
        Runs.map_of_ok _ (step_pattern hrun _)
      rw [obtained, Runs.after_of_ok hmoved, hmoved]
      refine .of_empty h fun m => ?_
      rw [held, hreader]
      rfl
    | current => exact continues_current h
    | split fraction => exact .refl h
    | progress => exact .refl h
    | close =>
      refine .of_same ⟨hstarted, rfl, rfl⟩ (fun m => ?_) ?_ fun _ => rfl
      · rw [held, hreader]
        rfl
      · simp only [recordsLeft, PatternReader.recordsLeft, hreader]
        rfl

theorem continues_all (h : r.Shut) (calls : List Call) :
    Continues (calls.count .advance) r (obtainedAll t calls r) (afterAll t calls r) := by
  induction calls generalizing r with
  | nil => exact .refl h
  | cons c rest ih =>
    have hfirst := continues_perform (t := t) h c
    have hall := hfirst.trans (ih hfirst.shut)
    rw [← List.count_append] at hall
    exact hall

/-- With no record left to decode a closed reader does not move. -/
theorem advance_of_shut (h : r.Shut) (hleft : r.recordsLeft = 0) :
    advance t r = .ok false r ∨ advance t r = .error (.misuse .readerClosed) r := by
  cases r with
  | container r =>
    exact .inr (step_container_error (ContainerReader.Shut.advance_of_none h hleft) _)
  | pattern r =>
    exact .inl (step_pattern (PatternReader.advance_of_over h.1 (.inl h.2.1)) _)

/-- What a reader brings behind the close are the next records of the block that it was decoding,
one for each call to move on, as far as the block has any left and they can be decoded. Until it
has brought one there is no present record, and when none is left moving on is of no use. The
reader of a pattern brings nothing. -/
theorem obtained_behind_close (t : FileTree) {r : Reader α} (hstarted : r.started = true)
    (calls : List Call) :
    obtainedAll t calls r.close = r.close.held (calls.count .advance) ∧
    (obtainedAll t calls r.close).length + (afterAll t calls r.close).recordsLeft =
      r.close.recordsLeft ∧
    (obtainedAll t calls r.close = [] →
      (afterAll t calls r.close).current = .error (.misuse .noCurrentRecord)) ∧
    ((afterAll t calls r.close).recordsLeft = 0 →
      advance t (afterAll t calls r.close) = .ok false (afterAll t calls r.close) ∨
      advance t (afterAll t calls r.close) =
        .error (.misuse .readerClosed) (afterAll t calls r.close)) ∧
    ∀ p, r = .pattern p → r.close.recordsLeft = 0 := by
  have hcontinues := continues_all (t := t) (shut_close hstarted) calls
  refine ⟨?_, hcontinues.count, fun hnone => hcontinues.none_current hnone ?_,
    advance_of_shut hcontinues.shut, ?_⟩
  · have hall := hcontinues.held_eq 0
    rw [held_zero, List.append_nil] at hall
    exact hall.symm
  · cases r <;> rfl
  · rintro p rfl
    rfl

/-- The file of the birds at its first record, with another one in the block. -/
theorem obtained_behind_close_birds : ∃ r r' : Reader Bird,
    start Plan.birdsTree (.container (.unstarted Plan.birdsSource 4 Plan.birds.content.length)) =
      .ok true r ∧
    r.started = true ∧ afterAll Plan.birdsTree [.advance, .current, .advance] r.close = r' ∧
    obtainedAll Plan.birdsTree [.advance, .current, .advance] r.close = [⟨2, "jay", "low", 5⟩] ∧
    r'.recordsLeft = 0 ∧ (advance Plan.birdsTree r' = .ok false r' ∨
      advance Plan.birdsTree r' = .error (.misuse .readerClosed) r') := by
  have hstart := Runs.eq_ok_iff.2 (show Runs.value? (start Plan.birdsTree) (.container
    (.unstarted Plan.birdsSource 4 Plan.birds.content.length) : Reader Bird) = some true by
      decide +kernel)
  refine ⟨_, _, hstart, by decide +kernel, rfl, by decide +kernel, by decide +kernel, ?_⟩
  exact (obtained_behind_close Plan.birdsTree (by decide +kernel) _).2.2.2.1 (by decide +kernel)

/-- Behind the close the reader moves to the other record of the block. -/
theorem moved_behind_close : ∃ r₀ r r' : ContainerReader Bird,
    ContainerReader.create Plan.birdsTree Plan.birdsSource 4 = .ok r₀ ∧
    r₀.start Plan.birdsTree = .ok true r ∧ r.close.advance = .ok true r' ∧
    r'.current = .ok ⟨2, "jay", "low", 5⟩ := by
  refine ⟨_, _, _, ContainerReader.create_of_entry rfl 4, Runs.eq_ok_iff.2 ?_,
    Runs.eq_ok_iff.2 ?_, ?_⟩
  all_goals decide +kernel

end Reader
end BlockContainer
