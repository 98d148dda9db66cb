import BlockContainer.Consumption
import BlockContainer.Varint

/-! # Bits of a byte string

A compressed stream is read bit by bit, the lowest bit of each byte first. Reading stops
at the first thing that is wrong, which is either damage or the end of the input; the two
are told apart because more input can mend only the second.
-/
namespace BlockContainer.Deflate

inductive Damage where
  | corrupt | truncated
deriving DecidableEq, Repr

/-- The unread bits of the byte that was begun, and the bytes behind it. -/
structure BitSource where
  begun : List Bool
  rest : Bytes
deriving DecidableEq

abbrev Inflating (α : Type) := EStateM Damage BitSource α

namespace BitSource

def ofBytes (b : Bytes) : BitSource := ⟨[], b⟩

def left (s : BitSource) : Nat := s.begun.length + 8 * s.rest.length

end BitSource

def bit : Inflating Bool := fun s =>
  match s.begun, s.rest with
  | b :: begun, rest => .ok b ⟨begun, rest⟩
  | [], x :: rest => .ok (x.toNat.testBit 0) ⟨(List.range' 1 7).map x.toNat.testBit, rest⟩
  | [], [] => .error .truncated s

def number : (width : Nat) → Inflating Nat
  | 0 => pure 0
  | width + 1 => do
    let low ← bit
    let high ← number width
    return low.toNat + 2 * high

def wholeBytes (n : Nat) : Inflating Bytes := fun s =>
  let found := s.rest.take n
  if found.length = n then .ok found ⟨[], s.rest.drop n⟩ else .error .truncated s

def require (condition : Prop) [Decidable condition] : Inflating Unit :=
  ensure condition .corrupt

theorem consumes_require (condition : Prop) [Decidable condition] :
    Consumes BitSource.left 0 (require condition) :=
  Consumes.ensure condition _

theorem consumes_bit : Consumes BitSource.left 1 bit := by
  rintro ⟨begun, rest⟩ b s' h
  cases begun with
  | cons b begun =>
    cases h
    simp only [BitSource.left, List.length_cons]
    omega
  | nil =>
    cases rest with
    | nil => cases h
    | cons x rest =>
      cases h
      simp only [BitSource.left, List.length_map, List.length_range', List.length_cons]
      omega

theorem consumes_number (width : Nat) : Consumes BitSource.left width (number width) := by
  induction width with
  | zero => exact Consumes.pure 0
  | succ width ih =>
    have := Consumes.bind consumes_bit fun low => Consumes.bind (k := 0) ih fun high =>
      Consumes.pure (low.toNat + 2 * high)
    exact this.of_le (by omega)

theorem consumes_wholeBytes (n : Nat) : Consumes BitSource.left (8 * n) (wholeBytes n) := by
  intro s b s' h
  simp only [wholeBytes] at h
  split at h
  · next hn =>
    simp only [List.length_take] at hn
    cases h
    simp only [BitSource.left, List.length_nil, List.length_drop]
    omega
  · cases h

def packBits : List Bool → Bytes
  | [] => []
  | b :: bits =>
    UInt8.ofNat ((b :: bits.take 7).foldr (fun b n => b.toNat + 2 * n) 0) :: packBits (bits.drop 7)
termination_by bits => bits.length
decreasing_by simp only [List.length_drop, List.length_cons]; omega

def numberBits (width n : Nat) : List Bool := (List.range width).map n.testBit

end BlockContainer.Deflate
