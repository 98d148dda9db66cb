import BlockContainer.Deflate.Compress
import BlockContainer.Error

/-! # Streams in chunks

Streams are made and read by services that are given all of their input before the first call,
and with each call the room for a chunk of output. What has been handed out is collected up to
the end of the stream. The services are parameters here; what is relied on is that they work on
the stream in its order, take what input there is as long as there is room, and make headway.
Then the calls come to an end, and what is collected does not depend on how the stream was cut
into chunks or on when the input was taken.
-/
namespace BlockContainer.Deflate

/-- What a call comes to: there is more to be done, the stream has ended, there is nothing that
could be done, or the call has failed. -/
inductive Outcome where
  | more | ended | stalled | failed
deriving DecidableEq, Repr

structure Handed (σ : Type) where
  outcome : Outcome
  made : Bytes
  next : σ

structure Inflater where
  State : Type
  /-- Before the first call. -/
  start : (input : Bytes) → State
  call : (room : Nat) → State → Handed State
  /-- How much of the input has not been taken. -/
  unread : State → Nat

structure Compressor where
  State : Type
  /-- Before the first call, if there is such a level. -/
  start : (level : Int) → (data : Bytes) → Option State
  call : (room : Nat) → State → Handed State
  /-- How much of the data has not been taken. -/
  unread : State → Nat

def chunkSize : Nat := 16384

namespace Inflater

/-- The input is used up and a call has made nothing. -/
def Idle (z : Inflater) (h : Handed z.State) : Prop := z.unread h.next = 0 ∧ h.made = []

instance (z : Inflater) (h : Handed z.State) : Decidable (z.Idle h) :=
  inferInstanceAs (Decidable (_ ∧ _))

/-- One more call follows that from a state, and this is the state for it. -/
def Follows (z : Inflater) (next s : z.State) : Prop :=
  (z.call chunkSize s).outcome = .more ∧ ¬z.Idle (z.call chunkSize s) ∧
    next = (z.call chunkSize s).next

def Ends (z : Inflater) (s : z.State) : Prop := Acc z.Follows s

def Halts (z : Inflater) : Prop := ∀ input, z.Ends (z.start input)

/-- Calls the inflater up to the end of the stream. The stream is cut off if there is nothing that
a call could do, or if it leaves no input and makes nothing. -/
def collect (z : Inflater) (out : Array UInt8) (s : z.State) (ends : z.Ends s) :
    Except FormatError Bytes :=
  let h := z.call chunkSize s
  match houtcome : h.outcome with
  | .failed => .error .deflateCorrupt
  | .stalled => .error .deflateTruncated
  | .ended => .ok (out ++ h.made).toList
  | .more =>
    if hidle : z.Idle h then .error .deflateTruncated
    else z.collect (out ++ h.made) h.next (ends.inv ⟨houtcome, hidle, rfl⟩)
termination_by (⟨s, ends⟩ : { s // Acc z.Follows s })
decreasing_by exact ⟨houtcome, hidle, rfl⟩

def run (z : Inflater) (halts : z.Halts) (input : Bytes) : Except FormatError Bytes :=
  z.collect #[] (z.start input) (halts input)

end Inflater

namespace Compressor

def Follows (d : Compressor) (next s : d.State) : Prop :=
  (d.call chunkSize s).outcome ≠ .failed ∧ (d.call chunkSize s).outcome ≠ .ended ∧
    next = (d.call chunkSize s).next

def Ends (d : Compressor) (s : d.State) : Prop := Acc d.Follows s

def Halts (d : Compressor) : Prop := ∀ level data s, d.start level data = some s → d.Ends s

def collect (d : Compressor) (out : Array UInt8) (s : d.State) (ends : d.Ends s) :
    Except Error Bytes :=
  let h := d.call chunkSize s
  if hfailed : h.outcome = .failed then .error (.service .deflateFailed)
  else if hended : h.outcome = .ended then .ok (out ++ h.made).toList
  else d.collect (out ++ h.made) h.next (ends.inv ⟨hfailed, hended, rfl⟩)
termination_by (⟨s, ends⟩ : { s // Acc d.Follows s })
decreasing_by exact ⟨hfailed, hended, rfl⟩

def run (d : Compressor) (halts : d.Halts) (level : Int) (data : Bytes) : Except Error Bytes :=
  match hs : d.start level data with
  | none => .error (.service .deflateLevel)
  | some s => d.collect #[] s (halts level data s hs)

end Compressor

/-- A call that takes input or hands out some of what is to be handed out leaves less of the two. -/
theorem headway_lt {total out made : Bytes} {unread left : Nat} (horder : out ++ made <+: total)
    (h : left ≤ unread ∧ (made ≠ [] ∨ left < unread)) :
    left + (total.length - (out ++ made).length) < unread + (total.length - out.length) := by
  have hbound := horder.length_le
  rw [List.length_append] at hbound ⊢
  rcases h with ⟨hle, hmade | htaken⟩
  · have := List.length_pos_iff.2 hmade
    omega
  · omega

def unpacked (input : Bytes) : Except FormatError Bytes :=
  match inflate input with
  | .ok data => .ok data
  | .error .corrupt => .error .deflateCorrupt
  | .error .truncated => .error .deflateTruncated

namespace Inflater

/-- What one call may do for an input of which this has been handed out. With room left, all
input has been taken, and it was not enough for an end or a fault. -/
structure Continues (z : Inflater) (Has : Bytes → Bytes → z.State → Prop) (input out : Bytes)
    (s : z.State) (h : Handed z.State) : Prop where
  in_order : out ++ h.made <+: written input
  ended : h.outcome = .ended → inflate input = .ok (out ++ h.made)
  failed : h.outcome = .failed → inflate input = .error .corrupt
  stalled : h.outcome = .stalled → inflate input = .error .truncated
  has : h.outcome = .more → Has input (out ++ h.made) h.next
  headway : h.outcome = .more → z.unread h.next ≤ z.unread s ∧
    (h.made ≠ [] ∨ z.unread h.next < z.unread s)
  takes_all : h.outcome = .more → h.made.length < chunkSize →
    z.unread h.next = 0 ∧ inflate input = .error .truncated

/-- The inflater reads streams in their order. `Has` says what has been handed out for which
input, whenever it is called. -/
structure Conforms (z : Inflater) (Has : Bytes → Bytes → z.State → Prop) : Prop where
  start : ∀ input, Has input [] (z.start input)
  call : ∀ {input out s}, Has input out s → z.Continues Has input out s (z.call chunkSize s)

section Conforms

variable {z : Inflater} {Has : Bytes → Bytes → z.State → Prop}

/-- The calls come to an end, since each takes input or hands out data, and neither is without
end. -/
theorem Conforms.ends_of_has (hz : z.Conforms Has) {input out : Bytes} {s : z.State}
    (hhas : Has input out s) : z.Ends s := by
  generalize hleft : z.unread s + ((written input).length - out.length) = left
  induction left using Nat.strongRecOn generalizing out s with
  | ind left ih =>
    have hcall := hz.call hhas
    refine Acc.intro s fun next hfollows => ?_
    obtain ⟨hmore, -, rfl⟩ := hfollows
    have hless := headway_lt hcall.in_order (hcall.headway hmore)
    exact ih _ (hleft ▸ hless) (hcall.has hmore) rfl

theorem Conforms.halts (hz : z.Conforms Has) : z.Halts := fun input =>
  hz.ends_of_has (hz.start input)

theorem Conforms.collect_eq_of_has (hz : z.Conforms Has) {input : Bytes} {out : Array UInt8}
    {s : z.State} (hhas : Has input out.toList s) (ends : z.Ends s) :
    z.collect out s ends = unpacked input := by
  -- The induction is on the calls that follow; what each leaves is what the next one is called for.
  have hends := ends
  induction hends generalizing out with
  | intro s _ ih =>
    have hcall := hz.call hhas
    rw [collect]
    split
    · next houtcome => rw [unpacked, hcall.failed houtcome]
    · next houtcome => rw [unpacked, hcall.stalled houtcome]
    · next houtcome =>
      rw [unpacked, hcall.ended houtcome, Array.toList_appendList]
    · next houtcome =>
      split
      · next hidle =>
        -- There was room, so the input was all taken and would not have been enough.
        have hless : (z.call chunkSize s).made.length < chunkSize := by
          rw [hidle.2]
          decide
        rw [unpacked, (hcall.takes_all houtcome hless).2]
      · next hidle =>
        refine ih _ ⟨houtcome, hidle, rfl⟩ ?_ _
        rw [Array.toList_appendList]
        exact hcall.has houtcome

/-- What is collected is what inflating all of the input at once comes to. -/
theorem Conforms.run_eq (hz : z.Conforms Has) (halts : z.Halts) (input : Bytes) :
    z.run halts input = unpacked input :=
  hz.collect_eq_of_has (hz.start input) _

end Conforms

/-- An inflation that was done at once, and how it ended. -/
structure Prepared where
  pending : Bytes
  last : Outcome
  unread : Nat

namespace Prepared

def ofBytes (input : Bytes) : Prepared :=
  match readBlocks (.ofBytes input) with
  | .ok () s => ⟨s.out.toList, .ended, input.length⟩
  | .error .corrupt s => ⟨s.out.toList, .failed, input.length⟩
  | .error .truncated s => ⟨s.out.toList, .stalled, input.length⟩

/-- There is more than fits into the room, or the stream is cut off and that has not been told. It
is told by a call that can do nothing. -/
def GoesOn (room : Nat) (s : Prepared) : Prop :=
  s.pending.drop room ≠ [] ∨ s.last = .stalled ∧ (s.pending ≠ [] ∨ s.unread ≠ 0)

instance (room : Nat) (s : Prepared) : Decidable (s.GoesOn room) :=
  inferInstanceAs (Decidable (_ ∨ _))

/-- The first call takes all of the input. How the stream ends is told with the last of the data. -/
def hand (room : Nat) (s : Prepared) : Handed Prepared where
  outcome := if s.GoesOn room then .more else s.last
  made := s.pending.take room
  next := ⟨s.pending.drop room, s.last, 0⟩

end Prepared

def standard : Inflater where
  State := Prepared
  start := .ofBytes
  call := Prepared.hand
  unread := Prepared.unread

structure Prepared.Holds (input out : Bytes) (s : Prepared) : Prop where
  written : out ++ s.pending = written input
  not_more : s.last ≠ .more
  ended : s.last = .ended → inflate input = .ok (Deflate.written input)
  failed : s.last = .failed → inflate input = .error .corrupt
  stalled : s.last = .stalled → inflate input = .error .truncated

theorem Prepared.holds_ofBytes (input : Bytes) : Holds input [] (.ofBytes input) := by
  unfold ofBytes
  cases hrun : readBlocks (.ofBytes input) with
  | ok u s =>
    have hinflate : inflate input = .ok s.out.toList := by rw [inflate, hrun]
    have hwritten : Deflate.written input = s.out.toList := by rw [Deflate.written, hrun]
    exact ⟨hwritten.symm, nofun, fun _ => hwritten ▸ hinflate, nofun, nofun⟩
  | error damage s =>
    have hinflate : inflate input = .error damage := by rw [inflate, hrun]
    have hwritten : Deflate.written input = s.out.toList := by rw [Deflate.written, hrun]
    cases damage with
    | corrupt => exact ⟨hwritten.symm, nofun, nofun, fun _ => hinflate, nofun⟩
    | truncated => exact ⟨hwritten.symm, nofun, nofun, nofun, fun _ => hinflate⟩

section Holds

variable {input out : Bytes} {s : Prepared}

theorem Prepared.Holds.next (h : Holds input out s) (room : Nat) :
    Holds input (out ++ (s.hand room).made) (s.hand room).next where
  written := by
    change out ++ s.pending.take room ++ s.pending.drop room = Deflate.written input
    rw [List.append_assoc, List.take_append_drop, h.written]
  not_more := h.not_more
  ended := h.ended
  failed := h.failed
  stalled := h.stalled

theorem Prepared.Holds.in_order (h : Holds input out s) (room : Nat) :
    out ++ (s.hand room).made <+: Deflate.written input :=
  (h.next room).written ▸ List.prefix_append _ _

theorem Prepared.Holds.goes_on (h : Holds input out s) (hmore : s.GoesOn chunkSize) :
    standard.Continues Holds input out s (s.hand chunkSize) := by
  have houtcome : (s.hand chunkSize).outcome = .more := if_pos hmore
  have hmade : s.pending ≠ [] → s.pending.take chunkSize ≠ [] := fun hne htake =>
    (List.take_eq_nil_iff.1 htake).elim (by decide) hne
  refine
    { in_order := h.in_order _
      ended := fun hended => by cases houtcome.symm.trans hended
      failed := fun hfailed => by cases houtcome.symm.trans hfailed
      stalled := fun hstalled => by cases houtcome.symm.trans hstalled
      has := fun _ => h.next _
      headway := fun _ => ⟨Nat.zero_le _, ?_⟩
      takes_all := fun _ hless => ⟨rfl, ?_⟩ }
  · rcases hmore with hlong | ⟨-, hpending | hunread⟩
    · exact .inl (hmade fun hnil => hlong (by rw [hnil, List.drop_nil]))
    · exact .inl (hmade hpending)
    · exact .inr (Nat.pos_of_ne_zero hunread)
  · rcases hmore with hlong | ⟨hstalled, -⟩
    · have hrest : chunkSize < s.pending.length := Nat.not_le.1 fun hle =>
        hlong (List.drop_eq_nil_iff.2 hle)
      have hfull : (s.hand chunkSize).made.length = chunkSize :=
        List.length_take_of_le (Nat.le_of_lt hrest)
      exact absurd hless (Nat.not_lt.2 (Nat.le_of_eq hfull.symm))
    · exact h.stalled hstalled

theorem Prepared.Holds.finishes (h : Holds input out s) (hlast : ¬s.GoesOn chunkSize) :
    standard.Continues Holds input out s (s.hand chunkSize) := by
  have houtcome : (s.hand chunkSize).outcome = s.last := if_neg hlast
  have hnot : (s.hand chunkSize).outcome ≠ .more := houtcome ▸ h.not_more
  have hall : s.pending.take chunkSize = s.pending :=
    List.take_of_length_le (Nat.not_lt.1 fun hlt =>
      hlast (.inl fun hnil => Nat.not_le.2 hlt (List.drop_eq_nil_iff.1 hnil)))
  refine
    { in_order := h.in_order _
      ended := fun hended => ?_
      failed := fun hfailed => h.failed (houtcome ▸ hfailed)
      stalled := fun hstalled => h.stalled (houtcome ▸ hstalled)
      has := fun hmore => absurd hmore hnot
      headway := fun hmore => absurd hmore hnot
      takes_all := fun hmore => absurd hmore hnot }
  change inflate input = .ok (out ++ s.pending.take chunkSize)
  rw [hall, h.written]
  exact h.ended (houtcome ▸ hended)

end Holds

theorem standard_conforms : standard.Conforms Prepared.Holds where
  start := Prepared.holds_ofBytes
  call {_ _ s} h := by
    by_cases hmore : Prepared.GoesOn chunkSize s
    · exact h.goes_on hmore
    · exact h.finishes hmore

end Inflater

namespace Compressor

structure Continues (d : Compressor) (Has : Bytes → Bytes → d.State → Prop) (stream out : Bytes)
    (s : d.State) (h : Handed d.State) : Prop where
  in_order : out ++ h.made <+: stream
  ended : h.outcome = .ended → out ++ h.made = stream
  not_failed : h.outcome ≠ .failed
  has : h.outcome ≠ .ended → Has stream (out ++ h.made) h.next
  headway : h.outcome ≠ .ended → d.unread h.next ≤ d.unread s ∧
    (h.made ≠ [] ∨ d.unread h.next < d.unread s)

/-- The compressor makes a stream of the data it is given, at the levels from zero to nine and the
default level. `Has` says what has been handed out of which stream, whenever it is called. -/
structure Conforms (d : Compressor) (Has : Bytes → Bytes → d.State → Prop)
    (stream : Int → Bytes → Bytes) : Prop where
  levels : ∀ {level data}, (d.start level data).isSome ↔ -1 ≤ level ∧ level ≤ 9
  start : ∀ {level data s}, d.start level data = some s → Has (stream level data) [] s
  call : ∀ {packed out s}, Has packed out s → d.Continues Has packed out s (d.call chunkSize s)

section Conforms

variable {d : Compressor} {Has : Bytes → Bytes → d.State → Prop} {stream : Int → Bytes → Bytes}

/-- The calls come to an end, since each takes data or hands out some of the stream, and neither is
without end. -/
theorem Conforms.ends_of_has (hd : d.Conforms Has stream) {packed out : Bytes} {s : d.State}
    (hhas : Has packed out s) : d.Ends s := by
  generalize hleft : d.unread s + (packed.length - out.length) = left
  induction left using Nat.strongRecOn generalizing out s with
  | ind left ih =>
    have hcall := hd.call hhas
    refine Acc.intro s fun next hfollows => ?_
    obtain ⟨-, hmore, rfl⟩ := hfollows
    have hless := headway_lt hcall.in_order (hcall.headway hmore)
    exact ih _ (hleft ▸ hless) (hcall.has hmore) rfl

theorem Conforms.halts (hd : d.Conforms Has stream) : d.Halts := fun _ _ _ hs =>
  hd.ends_of_has (hd.start hs)

theorem Conforms.collect_eq_of_has (hd : d.Conforms Has stream) {packed : Bytes} {out : Array UInt8}
    {s : d.State} (hhas : Has packed out.toList s) (ends : d.Ends s) :
    d.collect out s ends = .ok packed := by
  have hends := ends
  induction hends generalizing out with
  | intro s _ ih =>
    have hcall := hd.call hhas
    rw [collect, dif_neg hcall.not_failed]
    split
    · next hended => rw [Array.toList_appendList, hcall.ended hended]
    · next hmore =>
      refine ih _ ⟨hcall.not_failed, hmore, rfl⟩ ?_ _
      rw [Array.toList_appendList]
      exact hcall.has hmore

/-- There is a stream for the levels from zero to nine and the default level only. -/
theorem Conforms.level_of_run (hd : d.Conforms Has stream) {halts : d.Halts} {level : Int}
    {data packed : Bytes} (h : d.run halts level data = .ok packed) : -1 ≤ level ∧ level ≤ 9 := by
  unfold run at h
  split at h
  · cases h
  · next s hs =>
    have hsome : (d.start level data).isSome := by
      rw [hs]
      rfl
    exact hd.levels.1 hsome

/-- What is collected is the stream. -/
theorem Conforms.run_eq (hd : d.Conforms Has stream) (halts : d.Halts) {level : Int}
    (hlevel : -1 ≤ level ∧ level ≤ 9) (data : Bytes) :
    d.run halts level data = .ok (stream level data) := by
  have hsome : (d.start level data).isSome := hd.levels.2 hlevel
  unfold run
  split
  · next hnone =>
    rw [hnone] at hsome
    cases hsome
  · next s hs => exact hd.collect_eq_of_has (hd.start hs) _

end Conforms

/-- What is pending of a stream, with the room for a chunk. The end of a stream that fills its last
chunk is told by a call of its own. -/
def hand (room : Nat) (pending : Bytes) : Handed Bytes where
  outcome := if (pending.take room).length < room then .ended else .more
  made := pending.take room
  next := pending.drop room

def standard : Compressor where
  State := Bytes
  start level data := if -1 ≤ level ∧ level ≤ 9 then some (deflate level data) else none
  call := hand
  unread _ := 0

theorem hand_cases (room : Nat) (pending : Bytes) :
    (hand room pending).outcome = .ended ∧ (hand room pending).made = pending ∨
      (hand room pending).outcome = .more ∧ (hand room pending).made.length = room := by
  by_cases hlast : (pending.take room).length < room
  · refine .inl ⟨if_pos hlast, List.take_of_length_le ?_⟩
    rw [List.length_take] at hlast
    omega
  · exact .inr ⟨if_neg hlast, Nat.le_antisymm (List.length_take_le _ _) (Nat.not_lt.1 hlast)⟩

theorem standard_conforms :
    standard.Conforms (fun stream out (pending : Bytes) => out ++ pending = stream) deflate where
  levels {level data} := by
    change (if -1 ≤ level ∧ level ≤ 9 then some (deflate level data) else none).isSome ↔ _
    split <;> simp_all
  start {level data s} hs := by
    change (if -1 ≤ level ∧ level ≤ 9 then some (deflate level data) else none) = some s at hs
    split at hs <;> cases hs
    rfl
  call := by
    rintro stream out (pending : Bytes) rfl
    have hnext : out ++ pending.take chunkSize ++ pending.drop chunkSize = out ++ pending := by
      rw [List.append_assoc, List.take_append_drop]
    have horder : out ++ pending.take chunkSize <+: out ++ pending := ⟨_, hnext⟩
    change standard.Continues _ _ _ pending (hand chunkSize pending)
    rcases hand_cases chunkSize pending with ⟨hended, hmade⟩ | ⟨hmore, hmade⟩
    · exact
        { in_order := horder
          ended := fun _ => by rw [hmade]
          not_failed := fun hfailed => by cases hended.symm.trans hfailed
          has := fun hnot => absurd hended hnot
          headway := fun hnot => absurd hended hnot }
    · exact
        { in_order := horder
          ended := fun hended => by cases hmore.symm.trans hended
          not_failed := fun hfailed => by cases hmore.symm.trans hfailed
          has := fun _ => hnext
          headway := fun _ => ⟨Nat.le_refl _, .inl fun hnil => by
            rw [hnil] at hmade
            cases hmade⟩ }

end Compressor

/-- The service that payloads are compressed with. -/
class Service where
  compressor : Compressor
  halts : compressor.Halts

instance standardService : Service := ⟨.standard, Compressor.standard_conforms.halts⟩

end BlockContainer.Deflate
