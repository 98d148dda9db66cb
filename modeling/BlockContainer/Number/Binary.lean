import BlockContainer.Bytes

/-! # Binary floating point

A floating point value is kept as its bits, so that no payload of a NaN is lost.
`BinaryFormat.decode` says which number the bits stand for, exactly.
-/
namespace BlockContainer

/-- An interchange format: the width of the stored significand and of the exponent. -/
structure BinaryFormat where
  significandBits : Nat
  exponentBits : Nat
deriving DecidableEq, Repr

/-- The number `significand * 2 ^ exponent` with its sign, or one of the special values. -/
inductive BinaryNumber where
  | finite (negative : Bool) (significand : Nat) (exponent : Int)
  | infinite (negative : Bool)
  | nan (negative : Bool)
deriving DecidableEq, Repr

namespace BinaryFormat

def single : BinaryFormat := ⟨23, 8⟩
def double : BinaryFormat := ⟨52, 11⟩

def minExponent (f : BinaryFormat) : Int :=
  2 - (Nat.pow 2 (f.exponentBits - 1) : Int) - f.significandBits

def decode (f : BinaryFormat) (bits : Nat) : BinaryNumber :=
  let implicit := Nat.pow 2 f.significandBits
  let exponents := Nat.pow 2 f.exponentBits
  let stored := bits % implicit
  let exponent := bits / implicit % exponents
  let negative := bits / implicit / exponents % 2 = 1
  if exponent = exponents - 1 then
    if stored = 0 then .infinite negative else .nan negative
  else if exponent = 0 then .finite negative stored f.minExponent
  else .finite negative (stored + implicit) (f.minExponent + exponent - 1)

end BinaryFormat

namespace BinaryNumber

/-- Numeric equality: the two zeros are one number, and a NaN equals nothing. -/
def equal : BinaryNumber → BinaryNumber → Bool
  | nan _, _ => false
  | _, nan _ => false
  | finite _ 0 _, finite _ 0 _ => true
  | a, b => a == b

end BinaryNumber
end BlockContainer
