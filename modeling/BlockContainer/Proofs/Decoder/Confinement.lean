import BlockContainer.Proofs.Record.Decoding
import BlockContainer.Record.Value

/-! # Decoders stay in their buffer

Whatever is asked of a decoder, and whatever has failed before, it stands in its buffer and never
goes back. What a call comes to is settled by the bytes that it moves over: a success by them
alone, a failure by them and the number of bytes that are left.
-/
namespace BlockContainer

variable {α β : Type}

namespace Decoder

variable {d e : Decoder} {j k : Nat}

theorem remaining_eq (d : Decoder) : d.remaining = d.size - d.position := by
  rw [remaining, d.rest_eq, List.length_drop, size]

structure Alike (k : Nat) (d e : Decoder) : Prop where
  position_eq : e.position = d.position
  taken_eq : e.rest.take k = d.rest.take k

namespace Alike

theorem refl (k : Nat) (d : Decoder) : Alike k d d := ⟨rfl, rfl⟩

theorem front (h : Alike (k + j) d e) : Alike k d e := by
  refine ⟨h.position_eq, ?_⟩
  have htaken := congrArg (List.take k) h.taken_eq
  rwa [List.take_take, List.take_take, Nat.min_eq_left (Nat.le_add_right k j)] at htaken

theorem behind (h : Alike (k + j) d e) : Alike j (d.move k) (e.move k) := by
  refine ⟨congrArg (· + k) h.position_eq, ?_⟩
  have htaken := congrArg (List.drop k) h.taken_eq
  rwa [List.drop_take, List.drop_take, Nat.add_sub_cancel_left] at htaken

/-- What is there of the one is there of the other. -/
theorem rest_eq (h : Alike k d e) : e.rest = d.rest.take k ++ e.rest.drop k := by
  rw [← h.taken_eq, List.take_append_drop]

end Alike

/-- What the decoding comes to from here is settled by bytes that are there, which it moves over,
and a failure also by the size of the buffer. -/
inductive Settled (m : Decoding α) (d : Decoder) : Prop where
  | value (a : α) (k : Nat) : k ≤ d.remaining → (∀ e, Alike k d e → m e = .ok a (e.move k)) →
      Settled m d
  | failure (error : FormatError) (k : Nat) : k ≤ d.remaining →
      (∀ e, Alike k d e → e.size = d.size → m e = .error error (e.move k)) → Settled m d

def Confined (m : Decoding α) : Prop := ∀ d, Settled m d

namespace Confined

theorem pure (a : α) : Confined (Pure.pure a : Decoding α) := fun d =>
  .value a 0 (Nat.zero_le _) fun e _ => by rw [move_zero]; rfl

theorem throw (error : FormatError) : Confined (throw error : Decoding α) := fun d =>
  .failure error 0 (Nat.zero_le _) fun e _ _ => by rw [move_zero]; rfl

theorem bind {m : Decoding α} {f : α → Decoding β} (hm : Confined m) (hf : ∀ a, Confined (f a)) :
    Confined (m >>= f) := by
  intro d
  have hleft (k : Nat) : (d.move k).remaining = d.remaining - k := List.length_drop
  cases hm d with
  | failure error k hk hfail =>
    exact .failure error k hk fun e h hsize => Runs.bind_of_error (hfail e h hsize)
  | value a k hk hrun =>
    cases hf a (d.move k) with
    | value x j hj hthen =>
      rw [hleft] at hj
      refine .value x (k + j) (by omega) fun e h => ?_
      rw [Runs.bind_of_ok (hrun e h.front), hthen _ h.behind, move_move]
    | failure error j hj hthen =>
      rw [hleft] at hj
      refine .failure error (k + j) (by omega) fun e h hsize => ?_
      rw [Runs.bind_of_ok (hrun e h.front), hthen _ h.behind hsize, move_move]

end Confined

theorem take_of_le {n : Nat} (h : n ≤ d.remaining) : take n d = .ok (d.rest.take n) (d.move n) := by
  have hlength : (d.rest.take n).length = n := List.length_take_of_le h
  simp only [take, hlength, if_true]

theorem take_of_lt {n : Nat} (h : d.remaining < n) :
    take n d = .error (.bufferEnd n d.position d.size) d := by
  have hlength : (d.rest.take n).length ≠ n := by
    rw [List.length_take]
    rw [remaining] at h
    omega
  simp only [take, if_neg hlength]

theorem confined_take (n : Nat) : Confined (take n) := by
  intro d
  rcases Nat.lt_or_ge d.remaining n with hlt | hle
  · refine .failure (.bufferEnd n d.position d.size) 0 (Nat.zero_le _) fun e h hsize => ?_
    have hleft : e.remaining < n := by
      rw [e.remaining_eq, hsize, h.position_eq, ← d.remaining_eq]
      exact hlt
    rw [take_of_lt hleft, move_zero, hsize, h.position_eq]
  · refine .value (d.rest.take n) n hle fun e h => ?_
    have hlength := congrArg List.length h.taken_eq
    rw [List.length_take, List.length_take_of_le hle] at hlength
    rw [take_of_le (by rw [remaining]; omega), h.taken_eq]

theorem confined_readLong : Confined readLong := by
  intro d
  cases hscan : Varint.scan d.rest with
  | complete w k =>
    have hk := (Varint.scan_complete hscan).2
    refine .value (ZigZag.decode w) k hk fun e h => ?_
    have hread := takes_readLong (Varint.spells_take hscan) e _ h.rest_eq
    rwa [List.length_take_of_le hk] at hread
  | truncated k =>
    have hall := Varint.length_of_truncated hscan
    refine .failure (.bufferEnd 1 (d.position + k) d.size) k (Nat.le_of_eq hall) fun e h hsize => ?_
    have hleft : e.rest.length = k := by
      rw [hall]
      change e.remaining = d.remaining
      rw [e.remaining_eq, hsize, h.position_eq, ← d.remaining_eq]
    have hrest := h.taken_eq
    rw [List.take_of_length_le (Nat.le_of_eq hleft),
      List.take_of_length_le (Nat.le_of_eq hall.symm)] at hrest
    rw [readLong, hrest, hscan]
    simp only [h.position_eq, hsize]
  | overlong =>
    refine .failure .varintTooLong Varint.maxBytes (Varint.maxBytes_le_of_overlong hscan)
      fun e h _ => ?_
    rw [readLong, Varint.overlong_of_take_eq hscan h.taken_eq]

theorem confined_readInt : Confined readInt := by
  refine confined_readLong.bind fun n => ?_
  split
  · exact .pure _
  · exact .throw _

theorem confined_readBytes : Confined readBytes := by
  refine confined_readLong.bind fun n => ?_
  split
  · exact .throw _
  · exact confined_take _

inductive Call where
  | long | int | boolean | float | double | bytes | string
  | skip (n : UInt64)
deriving DecidableEq, Repr

def Call.perform : Call → Decoding Value
  | long => do return .long (← readLong)
  | int => do return .int (← readInt)
  | boolean => do return .boolean (← readBoolean)
  | float => do return .float (← readFloat)
  | double => do return .double (← readDouble)
  | bytes => do return .bytes (← readBytes)
  | string => do return .string (← readBytes)
  | skip n => do
    Decoder.skip n.toNat
    return .null

theorem Call.confined : (call : Call) → Confined call.perform
  | long => confined_readLong.bind fun _ => .pure _
  | int => confined_readInt.bind fun _ => .pure _
  | boolean => ((confined_take 1).bind fun _ => .pure _).bind fun _ => .pure _
  | float => ((confined_take 4).bind fun _ => .pure _).bind fun _ => .pure _
  | double => ((confined_take 8).bind fun _ => .pure _).bind fun _ => .pure _
  | bytes => confined_readBytes.bind fun _ => .pure _
  | string => confined_readBytes.bind fun _ => .pure _
  | skip n => ((confined_take n.toNat).bind fun _ => .pure _).bind fun _ => .pure _

def afterAll (d : Decoder) (calls : List Call) : Decoder :=
  calls.foldl (fun d call => Runs.after call.perform d) d

/-- The other decoder stands at the same place of a buffer that has the same bytes from there to
this offset. -/
structure Agrees (d : Decoder) (stop : Nat) (e : Decoder) : Prop where
  position_eq : e.position = d.position
  bytes_eq : ∀ i, d.position ≤ i → i < stop → e.buffer[i]? = d.buffer[i]?

theorem Agrees.alike (h : Agrees d (d.position + k) e) : Alike k d e := by
  refine ⟨h.position_eq, List.ext_getElem? fun i => ?_⟩
  simp only [e.rest_eq, d.rest_eq, h.position_eq, List.getElem?_take, List.getElem?_drop]
  split
  · exact h.bytes_eq _ (by omega) (by omega)
  · rfl

/-- The call moves on within the buffer. On every buffer with the bytes that it moved over it
succeeds with the same value and stands at the same place, and on every such buffer of the same
size it fails in the same way. -/
structure Keeps (call : Call) (d : Decoder) : Prop where
  buffer_eq : (Runs.after call.perform d).buffer = d.buffer
  forward : d.position ≤ (Runs.after call.perform d).position
  inside : (Runs.after call.perform d).position ≤ d.size
  value : ∀ v, Runs.value? call.perform d = some v →
    ∀ e, Agrees d (Runs.after call.perform d).position e →
      ∃ e', call.perform e = .ok v e' ∧ e'.buffer = e.buffer ∧
        e'.position = (Runs.after call.perform d).position
  failure : ∀ error, Runs.error? call.perform d = some error →
    ∀ e, Agrees d (Runs.after call.perform d).position e → e.size = d.size →
      ∃ e', call.perform e = .error error e' ∧ e'.buffer = e.buffer ∧
        e'.position = (Runs.after call.perform d).position

theorem keeps_call (call : Call) (h : d.position ≤ d.size) : Keeps call d := by
  have hleft := d.remaining_eq
  cases call.confined d with
  | value v k hk hrun =>
    have hafter := Runs.after_of_ok (hrun d (.refl k d))
    have hvalue := Runs.value?_of_ok (hrun d (.refl k d))
    have herror : Runs.error? call.perform d = none := by
      rw [Runs.error?, hrun d (.refl k d)]
    refine ⟨?_, ?_, ?_, ?_, ?_⟩ <;> rw [hafter]
    · rfl
    · exact Nat.le_add_right _ _
    · change d.position + k ≤ d.size
      omega
    · intro v' hv' e he
      cases hvalue.symm.trans hv'
      exact ⟨e.move k, hrun e he.alike, rfl, congrArg (· + k) he.position_eq⟩
    · intro error herror'
      cases herror.symm.trans herror'
  | failure error k hk hfail =>
    have hrun := hfail d (.refl k d) rfl
    have hafter := Runs.after_of_error hrun
    refine ⟨?_, ?_, ?_, ?_, ?_⟩ <;> rw [hafter]
    · rfl
    · exact Nat.le_add_right _ _
    · change d.position + k ≤ d.size
      omega
    · intro v hv
      rw [Runs.value?, hrun] at hv
      cases hv
    · intro error' herror e he hsize
      rw [Runs.error?, hrun] at herror
      cases herror
      exact ⟨e.move k, hfail e he.alike hsize, rfl, congrArg (· + k) he.position_eq⟩

theorem inside_afterAll (calls : List Call) (h : d.position ≤ d.size) :
    (d.afterAll calls).buffer = d.buffer ∧ (d.afterAll calls).position ≤ d.size := by
  induction calls generalizing d with
  | nil => exact ⟨rfl, h⟩
  | cons call rest ih =>
    have hkeeps := keeps_call call h
    have hsize : (Runs.after call.perform d).size = d.size := congrArg List.length hkeeps.buffer_eq
    obtain ⟨hbuffer, hinside⟩ := ih (hsize ▸ hkeeps.inside)
    exact ⟨hbuffer.trans hkeeps.buffer_eq, hsize ▸ hinside⟩

/-- What is left, as a word: the difference of two words does not wrap round. -/
theorem toNat_left (h : d.position ≤ d.size) (hsize : d.size < 2 ^ 64) :
    (UInt64.ofNat d.size - UInt64.ofNat d.position).toNat = d.remaining := by
  have hleft := d.remaining_eq
  rw [UInt64.toNat_sub, UInt64.toNat_ofNat', UInt64.toNat_ofNat']
  omega

/-- Bytes are skipped if there are so many, however many a word asks for. -/
theorem skip_iff (n : UInt64) (h : d.position ≤ d.size) (hsize : d.size < 2 ^ 64) :
    (∃ d', skip n.toNat d = .ok () d') ↔ n ≤ UInt64.ofNat d.size - UInt64.ofNat d.position := by
  rw [UInt64.le_iff_toNat_le, toNat_left h hsize]
  constructor
  · rintro ⟨d', hrun⟩
    obtain ⟨b, d₁, htake, -⟩ := bind_eq_ok_iff.1 hrun
    rcases Nat.lt_or_ge d.remaining n.toNat with hlt | hle
    · cases (take_of_lt hlt).symm.trans htake
    · exact hle
  · intro hle
    exact ⟨d.move n.toNat, Runs.bind_of_ok (take_of_le hle)⟩

/-- Behind any calls a decoder stands within its buffer, and what is left of the buffer is what
lies behind its position, also as a difference of words. Any further call keeps to the bytes
that it moves over and does not go back. -/
theorem keeps_to_buffer (buffer : Bytes) (calls : List Call) :
    ((ofBytes buffer).afterAll calls).buffer = buffer ∧
    ((ofBytes buffer).afterAll calls).position + ((ofBytes buffer).afterAll calls).remaining =
      buffer.length ∧
    (∀ call, Keeps call ((ofBytes buffer).afterAll calls)) ∧
    (buffer.length < 2 ^ 64 →
      (UInt64.ofNat buffer.length - UInt64.ofNat ((ofBytes buffer).afterAll calls).position).toNat =
        ((ofBytes buffer).afterAll calls).remaining ∧
      ∀ n : UInt64, (∃ d', skip n.toNat ((ofBytes buffer).afterAll calls) = .ok () d') ↔
        n ≤ UInt64.ofNat buffer.length -
          UInt64.ofNat ((ofBytes buffer).afterAll calls).position) := by
  obtain ⟨hbuffer, hinside⟩ := inside_afterAll (d := ofBytes buffer) calls (Nat.zero_le _)
  generalize (ofBytes buffer).afterAll calls = d at hbuffer hinside ⊢
  have hsize : d.size = buffer.length := congrArg List.length hbuffer
  have hstands : d.position ≤ d.size := hsize ▸ hinside
  have hleft := d.remaining_eq
  refine ⟨hbuffer, by omega, fun call => keeps_call call hstands, fun hword => ?_⟩
  rw [← hsize] at hword ⊢
  exact ⟨toNat_left hstands hword, fun n => skip_iff n hstands hword⟩

/-- A string that announces more than there is leaves the decoder behind its length, an integer
without an end leaves it at the end, and the greatest word cannot be skipped. -/
theorem keeps_to_buffer_hostile :
    ([0x0a, 0x61, 0x80] : Bytes).length < 2 ^ 64 ∧
    ((ofBytes [0x0a, 0x61, 0x80]).afterAll [.string, .skip 1, .long]).position = 3 ∧
    ((ofBytes [0x0a, 0x61, 0x80]).afterAll [.string]).remaining = 2 ∧
    ¬∃ d', skip (0xffffffffffffffff : UInt64).toNat
      ((ofBytes [0x0a, 0x61, 0x80]).afterAll [.string]) = .ok () d' := by
  have hposition : ((ofBytes [0x0a, 0x61, 0x80]).afterAll [.string]).position = 1 := rfl
  obtain ⟨-, hsum, -, hwords⟩ := keeps_to_buffer [0x0a, 0x61, 0x80] [.string]
  have hlength : List.length ([0x0a, 0x61, 0x80] : Bytes) = 3 := rfl
  rw [hposition, hlength] at hsum
  refine ⟨by decide, rfl, by omega, ?_⟩
  rw [(hwords (by decide)).2, hposition]
  decide

end Decoder
end BlockContainer
