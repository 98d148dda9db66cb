import BlockContainer.Codec

/-! # Byte strings in pieces

A long byte string that repeats itself is told in pieces, each of them some bytes and how often they
are repeated. How long it is and how it begins is known without putting it together. A codec sees
no more of a payload than it can count, so whether it restores a payload is known from there.
-/
namespace BlockContainer

structure Repeated where
  unit : Bytes
  times : Nat
deriving DecidableEq, Repr

namespace Repeated

def toBytes (p : Repeated) : Bytes := (List.replicate p.times p.unit).flatten

def length (p : Repeated) : Nat := p.times * p.unit.length

def joined (pieces : List Repeated) : Bytes := pieces.flatMap toBytes

def total : List Repeated → Nat
  | [] => 0
  | p :: rest => p.length + total rest

/-- The first `n` bytes, of as many repetitions as they reach into. -/
def take (n : Nat) : List Repeated → Bytes
  | [] => []
  | p :: rest =>
    if p.length ≤ n then p.toBytes ++ take (n - p.length) rest
    else (toBytes ⟨p.unit, n / p.unit.length + 1⟩).take n

@[simp] theorem length_toBytes (p : Repeated) : p.toBytes.length = p.length := by
  simp [toBytes, length]

@[simp] theorem length_joined (pieces : List Repeated) : (joined pieces).length = total pieces := by
  induction pieces with
  | nil => rfl
  | cons p rest ih => simp_all [joined, total]

/-- Fewer repetitions begin in the same way. -/
theorem take_toBytes_of_lt {p : Repeated} {n : Nat} (h : n < p.length) :
    (toBytes ⟨p.unit, n / p.unit.length + 1⟩).take n = p.toBytes.take n := by
  have hunit : 0 < p.unit.length := Nat.pos_of_ne_zero fun hzero => by
    rw [length, hzero] at h
    exact Nat.not_lt_zero _ h
  have htimes : n / p.unit.length + 1 ≤ p.times := (Nat.div_lt_iff_lt_mul hunit).2 h
  have hsplit : p.toBytes = toBytes ⟨p.unit, n / p.unit.length + 1⟩ ++
      toBytes ⟨p.unit, p.times - (n / p.unit.length + 1)⟩ := by
    simp only [toBytes]
    rw [← List.flatten_append, List.replicate_append_replicate, Nat.add_sub_cancel' htimes]
  have hreach : n ≤ (toBytes ⟨p.unit, n / p.unit.length + 1⟩).length := by
    rw [length_toBytes, length, Nat.mul_comm]
    exact Nat.le_of_lt (Nat.lt_mul_div_succ n hunit)
  rw [hsplit, List.take_append_of_le_length hreach]

theorem take_eq (n : Nat) (pieces : List Repeated) : take n pieces = (joined pieces).take n := by
  induction pieces generalizing n with
  | nil => simp [take, joined]
  | cons p rest ih =>
    have hcons : joined (p :: rest) = p.toBytes ++ joined rest := rfl
    rw [take, hcons, List.take_append, length_toBytes]
    by_cases h : p.length ≤ n
    · have hall : p.toBytes.take n = p.toBytes := List.take_of_length_le (by rwa [length_toBytes])
      rw [if_pos h, ih, hall]
    · have hnone : n - p.length = 0 := by omega
      rw [if_neg h, take_toBytes_of_lt (Nat.lt_of_not_le h), hnone, List.take_zero,
        List.append_nil]

end Repeated

namespace Codec

def restores (c : Codec) (payload : Bytes) : Except Error (Bool × Bool) := do
  let packed ← c.compress payload
  let data ← (c.decompress packed).mapError .format
  return (data == payload, packed.length < payload.length)

/-- The same for a payload in pieces. No more of it is put together than the codec sees, or than
came back. -/
def restoresJoined (c : Codec) (pieces : List Repeated) : Except Error (Bool × Bool) :=
  let total := Repeated.total pieces
  match c with
  | null => .ok (true, false)
  | deflate level => do
    let packed ← (deflate level).compress (Repeated.take (total % 4294967296) pieces)
    let data ← ((deflate level).decompress packed).mapError .format
    return (data.length == total && data == Repeated.joined pieces, packed.length < total)

/-- A service makes the same of what it sees of a payload. -/
theorem compress_addressable (level : Int) (payload : Bytes) :
    (deflate level).compress (addressable payload) = (deflate level).compress payload := by
  simp only [compress, compressBy, addressable_of_lt (length_addressable_lt payload)]

theorem restoresJoined_eq (c : Codec) (pieces : List Repeated) :
    c.restoresJoined pieces = c.restores (Repeated.joined pieces) := by
  generalize hpayload : Repeated.joined pieces = payload
  have hlength : Repeated.total pieces = payload.length := by
    rw [← hpayload, Repeated.length_joined]
  cases c with
  | null =>
    have hshorter : ¬payload.length < payload.length := Nat.lt_irrefl _
    change Except.ok (true, false) = Except.ok (payload == payload, decide _)
    rw [beq_self_eq_true, decide_eq_false hshorter]
  | deflate level =>
    have hseen : Repeated.take (payload.length % 4294967296) pieces = addressable payload := by
      rw [Repeated.take_eq, hpayload, addressable]
    -- Data of another length need not be compared.
    have hequal (data : Bytes) : (data.length == payload.length && data == payload) =
        (data == payload) := by
      by_cases hdata : data = payload
      · simp [hdata]
      · simp [hdata]
    simp only [restoresJoined, restores, hlength, hpayload, hseen, compress_addressable, hequal]

end Codec
end BlockContainer
