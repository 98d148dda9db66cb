import BlockContainer.Number.Decimal

/-! # Where a fraction cuts a range

A fraction is the bits of a double precision number. The cut lies at the start of the
range plus the fraction of its length, where the product is rounded once to a significand
of 64 bits, ties to even, and then cut to an integer.
-/
namespace BlockContainer

structure Dyadic where
  significand : Nat
  exponent : Int
deriving DecidableEq, Repr

namespace Dyadic

def one : Dyadic := ⟨1, 0⟩

def floor (x : Dyadic) : Nat :=
  if 0 ≤ x.exponent then x.significand * Nat.pow 2 x.exponent.toNat
  else x.significand / Nat.pow 2 (-x.exponent).toNat

def bitLength (n : Nat) : Nat := if n = 0 then 0 else n.log2 + 1

/-- Keeps 64 bits of the significand, rounding ties to even. -/
def round (x : Dyadic) : Dyadic :=
  let excess := bitLength x.significand - 64
  ⟨Decimal.roundHalfEven x.significand (Nat.pow 2 excess), x.exponent + excess⟩

def scale (x : Dyadic) (n : Nat) : Dyadic := ⟨x.significand * n, x.exponent⟩

/-- The fraction with these bits, cut to at most one, if it is positive. -/
def ofFraction? (bits : UInt64) : Option Dyadic :=
  match BinaryFormat.double.decode bits.toNat with
  | .infinite false => some one
  | .finite false m q =>
    if m = 0 then none
    else if 0 < floor ⟨m, q⟩ then some one
    else some ⟨m, q⟩
  | _ => none

end Dyadic

def splitPoint (start stop : UInt64) (fraction : Dyadic) : UInt64 :=
  start + UInt64.ofNat (fraction.scale (stop - start).toNat).round.floor

end BlockContainer
