import BlockContainer.Number.Binary

/-! # Decimal text of a number

A finite value is rounded, exactly and with ties to even, to a fixed count of
significant decimal digits. It is written positionally unless its exponent is below
-4 or reaches the count of digits; zeros at the end of the fraction are dropped.
-/
namespace BlockContainer.Decimal

def roundHalfEven (num den : Nat) : Nat :=
  let q := num / den
  let r := num % den
  if 2 * r < den then q
  else if den < 2 * r then q + 1
  else q + q % 2

def digitCount (n : Nat) : Nat := if n = 0 then 0 else digitCount (n / 10) + 1

def exponent (num den : Nat) : Int :=
  if den ≤ num then digitCount (num / den) - 1
  else -(digitCount ((den + num - 1) / num - 1) : Int)

/-- The quotient as an integer of `digits` digits and the exponent of the first one. -/
def significant (digits num den : Nat) : Nat × Int :=
  let e := exponent num den
  let shift := (digits : Int) - 1 - e
  let rounded :=
    if 0 ≤ shift then roundHalfEven (num * Nat.pow 10 shift.toNat) den
    else roundHalfEven num (den * Nat.pow 10 (-shift).toNat)
  if rounded = Nat.pow 10 digits then (Nat.pow 10 (digits - 1), e + 1) else (rounded, e)

def zero : UInt8 := 0x30

def fraction (digits : Bytes) : Bytes :=
  let kept := (digits.reverse.dropWhile (· == zero)).reverse
  if kept.isEmpty then [] else 0x2e :: kept

def exponentText (e : Int) : Bytes :=
  let digits := Bytes.decimal e.natAbs
  (if e < 0 then 0x2d else 0x2b) :: (if digits.length < 2 then zero :: digits else digits)

def general (digits num den : Nat) : Bytes :=
  let (rounded, e) := significant digits num den
  let text := Bytes.decimal rounded
  if e < -4 ∨ (digits : Int) ≤ e then
    text.take 1 ++ fraction (text.drop 1) ++ 0x65 :: exponentText e
  else if e < 0 then
    zero :: fraction (List.replicate ((-e).toNat - 1) zero ++ text)
  else
    text.take (e.toNat + 1) ++ fraction (text.drop (e.toNat + 1))

def signed (negative : Bool) (text : Bytes) : Bytes :=
  if negative then 0x2d :: text else text

def ofBinary : BinaryNumber → Bytes
  | .nan negative => signed negative "nan"
  | .infinite negative => signed negative "inf"
  | .finite negative 0 _ => signed negative [zero]
  | .finite negative m q =>
      signed negative
        (if 0 ≤ q then general 6 (m * Nat.pow 2 q.toNat) 1
          else general 6 m (Nat.pow 2 (-q).toNat))

end BlockContainer.Decimal
