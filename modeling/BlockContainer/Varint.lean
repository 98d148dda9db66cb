import BlockContainer.Bytes

/-! # Variable-length integers

A signed 64-bit integer is mapped to an unsigned one by the zig-zag rule and then
written in groups of seven bits, least significant first; every byte but the last
has its high bit set. `scan` reads one such group sequence at the front of a byte
string and is shared by every reader of integers, so that all of them agree.
-/
namespace BlockContainer

namespace ZigZag

/-- Nonnegative numbers go to the even words, negative ones to the odd words. -/
def encode (n : Int64) : UInt64 := (n.toUInt64 <<< 1) ^^^ (n >>> 63).toUInt64

def decode (w : UInt64) : Int64 := (w >>> 1).toInt64 ^^^ -(w &&& 1).toInt64

end ZigZag

namespace Varint

/-- A 64-bit word never needs more than ten groups of seven bits. -/
def maxBytes : Nat := 10

def continues (b : UInt8) : Bool := 128 ≤ b

/-- Puts groups into a word, the first at this place and each seven bits above the last one.
What a group has beyond the sixty-fourth bit is lost. -/
def place (word shift : UInt64) : Bytes → UInt64
  | [] => word
  | b :: rest => place (word ||| ((b &&& 127).toUInt64 <<< shift)) (shift + 7) rest

def word (groups : Bytes) : UInt64 := place 0 0 groups

inductive Scan where
  | complete (word : UInt64) (size : Nat)
  | truncated (size : Nat)
  | overlong
deriving DecidableEq, Repr

/-- The first group sequence of `input`. Ten bytes that all announce another one are no
integer. -/
def scan (input : Bytes) : Scan :=
  let leading := (input.take maxBytes).takeWhile continues
  if leading.length = maxBytes then .overlong
  else match input.drop leading.length with
    | [] => .truncated leading.length
    | last :: _ => .complete (word (leading ++ [last])) (leading.length + 1)

theorem scan_complete {input : Bytes} {word : UInt64} {n : Nat}
    (h : scan input = .complete word n) : 0 < n ∧ n ≤ input.length := by
  simp only [scan] at h
  split at h
  · cases h
  · split at h
    · cases h
    · next last rest hdrop =>
      have hlen := congrArg List.length hdrop
      simp only [List.length_drop, List.length_cons] at hlen
      cases h
      omega

def groups (n : Nat) : Bytes :=
  if n < 128 then [UInt8.ofNat n] else UInt8.ofNat (n % 128 + 128) :: groups (n / 128)

def encode (n : Int64) : Bytes := groups (ZigZag.encode n).toNat

end Varint
end BlockContainer
