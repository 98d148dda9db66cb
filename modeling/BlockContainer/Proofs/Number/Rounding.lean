import BlockContainer.Range.SplitPoint
import Mathlib.Algebra.Order.Floor.Semifield
import Mathlib.Algebra.Order.Field.Power
import Mathlib.Data.Rat.Floor
import Mathlib.Tactic.Linarith
import Mathlib.Tactic.Positivity

/-! # Rounding to a word

A double stands for an exact rational number or for an infinity. A product that is kept to 64 bits is
the nearest number that has a significand of so many bits. So rounding keeps to its side of each
of these numbers, all integers of a word among them, and never turns a larger number into a
smaller one.
-/
namespace BlockContainer

namespace Decimal

/-- The quotient is rounded to a neighbour, and in the middle between two to the even one. -/
theorem roundHalfEven_cases (num den : Nat) :
    (roundHalfEven num den = num / den ∧ 2 * (num % den) ≤ den ∨
      roundHalfEven num den = num / den + 1 ∧ den ≤ 2 * (num % den)) ∧
    (2 * (num % den) = den → Even (roundHalfEven num den)) := by
  simp only [roundHalfEven, Nat.even_iff]
  split
  · omega
  · split
    · omega
    · rcases Nat.mod_two_eq_zero_or_one (num / den) with h | h <;> omega

/-- No multiple of the divisor is nearer, and of two that are as near an even one is taken. -/
theorem roundHalfEven_nearest {num den : Nat} (hden : 0 < den) (n : Nat) :
    let rounded := roundHalfEven num den
    ((rounded * den : Nat) - num : Int).natAbs ≤ ((n * den : Nat) - num : Int).natAbs ∧
      (((n * den : Nat) - num : Int).natAbs = ((rounded * den : Nat) - num : Int).natAbs →
        n = rounded ∨ Even rounded) := by
  intro rounded
  obtain ⟨hneighbour, heven⟩ := roundHalfEven_cases num den
  have hsplit := Nat.div_add_mod' num den
  have hrest : num % den < den := Nat.mod_lt _ hden
  have hsucc (k : Nat) : (k + 1) * den = k * den + den := Nat.succ_mul k den
  have hnext := hsucc (num / den)
  have hnear : ((rounded * den : Nat) - num : Int).natAbs ≤ num % den ∧
      ((rounded * den : Nat) - num : Int).natAbs ≤ den - num % den := by
    rcases hneighbour with ⟨hdown, hle⟩ | ⟨hup, hle⟩
    · simp only [rounded, hdown]
      omega
    · simp only [rounded, hup]
      omega
  -- The other neighbour is no nearer than either of these, and what lies beyond is further away.
  have hfar : n = rounded ∨ num % den ≤ ((n * den : Nat) - num : Int).natAbs ∧
      den - num % den ≤ ((n * den : Nat) - num : Int).natAbs := by
    rcases Nat.lt_trichotomy n (num / den) with hlt | rfl | hgt
    · have := Nat.mul_le_mul_right den (Nat.succ_le_of_lt hlt)
      rw [hsucc] at this
      omega
    · simp only [rounded]
      omega
    · obtain rfl | hlt : n = num / den + 1 ∨ num / den + 1 < n := by omega
      · simp only [rounded]
        omega
      · have := Nat.mul_le_mul_right den (Nat.succ_le_of_lt hlt)
        rw [hsucc, hsucc] at this
        omega
  rcases hfar with heq | hfar
  · rw [heq]
    exact ⟨Nat.le_refl _, fun _ => .inl rfl⟩
  · exact ⟨by omega, fun h => .inr (heven (by omega))⟩

end Decimal

namespace BinaryNumber

def value? : BinaryNumber → Option (WithBot (WithTop ℚ))
  | finite false m q => some ((m * 2 ^ q : ℚ) : WithTop ℚ)
  | finite true m q => some ((-(m * 2 ^ q) : ℚ) : WithTop ℚ)
  | infinite false => some (⊤ : WithTop ℚ)
  | infinite true => some ⊥
  | nan _ => none

/-- Above zero are the infinity and the numbers with a significand and without a sign. -/
theorem value?_pos_cases {x : BinaryNumber} {v : WithBot (WithTop ℚ)} (hv : x.value? = some v)
    (hpos : 0 < v) :
    x = infinite false ∧ v = (⊤ : WithTop ℚ) ∨
      ∃ m q, x = finite false m q ∧ m ≠ 0 ∧ v = ((m * 2 ^ q : ℚ) : WithTop ℚ) := by
  rcases x with ⟨_ | _, m, q⟩ | ⟨_ | _⟩ | _ <;> cases hv
  · norm_cast at hpos
    refine .inr ⟨m, q, rfl, ?_, rfl⟩
    rintro rfl
    simp at hpos
  · norm_cast at hpos
    have : (0 : ℚ) ≤ m * 2 ^ q := by positivity
    linarith
  · exact .inl ⟨rfl, rfl⟩
  · simp at hpos

end BinaryNumber

namespace BinaryFormat

/-- Numbers of a format have a significand of full width, unless they are next to zero. -/
structure Holds (f : BinaryFormat) (m : Nat) (q : Int) : Prop where
  lt : m < 2 ^ (f.significandBits + 1)
  le : f.minExponent ≤ q
  wide : q = f.minExponent ∨ 2 ^ f.significandBits ≤ m

theorem holds_of_decode {f : BinaryFormat} {bits : Nat} {negative : Bool} {m : Nat} {q : Int}
    (h : f.decode bits = .finite negative m q) : f.Holds m q := by
  have hstored : bits % 2 ^ f.significandBits < 2 ^ f.significandBits :=
    Nat.mod_lt _ (Nat.two_pow_pos _)
  simp only [decode, Nat.pow_eq] at h
  split at h
  · split at h <;> cases h
  · split at h
    · cases h
      exact ⟨by rw [Nat.pow_succ]; omega, Int.le_refl _, .inl rfl⟩
    · cases h
      exact ⟨by rw [Nat.pow_succ]; omega, by omega, .inr (by omega)⟩

/-- A number of a format is spelled in one way. -/
theorem Holds.unique {f : BinaryFormat} {m m' : Nat} {q q' : Int} (h : f.Holds m q)
    (h' : f.Holds m' q') (hvalue : (m * 2 ^ q : ℚ) = m' * 2 ^ q') : m = m' ∧ q = q' := by
  wlog hle : q ≤ q' generalizing m m' q q' with hother
  · exact (hother h' h hvalue.symm (by omega)).imp Eq.symm Eq.symm
  obtain ⟨k, rfl⟩ := Int.le.dest hle
  have hm : m = m' * 2 ^ k := by
    rw [zpow_add₀ two_ne_zero, zpow_natCast, mul_comm (2 ^ q : ℚ), ← mul_assoc] at hvalue
    exact_mod_cast mul_right_cancel₀ (zpow_ne_zero q two_ne_zero) hvalue
  cases k with
  | zero => simpa using hm
  | succ k =>
    have hwide := h'.wide.resolve_left (by have := h.le; omega)
    have hlt := h.lt
    have hpos : 1 ≤ 2 ^ k := Nat.one_le_two_pow
    rw [hm, Nat.pow_succ, Nat.pow_succ] at hlt
    nlinarith

end BinaryFormat

namespace Dyadic

def value (x : Dyadic) : ℚ := x.significand * 2 ^ x.exponent

theorem value_nonneg (x : Dyadic) : 0 ≤ x.value := by
  unfold value
  positivity

theorem value_scale (x : Dyadic) (n : Nat) : (x.scale n).value = x.value * n := by
  simp only [value, scale, Nat.cast_mul]
  ring

theorem floor_eq (x : Dyadic) : x.floor = ⌊x.value⌋₊ := by
  simp only [floor, value, Nat.pow_eq]
  split
  · next h =>
    obtain ⟨n, hn⟩ := Int.eq_ofNat_of_zero_le h
    rw [hn, zpow_natCast, Int.toNat_natCast]
    exact_mod_cast (Nat.floor_natCast (R := ℚ) _).symm
  · next h =>
    obtain ⟨n, hn⟩ := Int.eq_ofNat_of_zero_le (Int.le_of_lt (Int.neg_pos_of_neg (Int.not_le.1 h)))
    have hexponent : x.exponent = -n := by omega
    rw [hn, hexponent, zpow_neg, zpow_natCast, ← div_eq_mul_inv, Int.toNat_natCast]
    exact_mod_cast (Nat.floor_div_eq_div (K := ℚ) _ _).symm

theorem one_value : one.value = 1 := by simp [one, value]

/-- The fraction that a double above zero stands for, cut to at most one. -/
theorem ofFraction?_of_pos {bits : UInt64} {v : WithBot (WithTop ℚ)}
    (hv : (BinaryFormat.double.decode bits.toNat).value? = some v) (hpos : 0 < v) :
    ∃ f, ofFraction? bits = some f ∧ ((f.value : WithTop ℚ) : WithBot (WithTop ℚ)) = min v 1 ∧
      f.significand < 2 ^ 53 := by
  rw [ofFraction?]
  obtain ⟨hdecode, rfl⟩ | ⟨m, q, hdecode, hm, rfl⟩ := BinaryNumber.value?_pos_cases hv hpos
  · rw [hdecode]
    exact ⟨one, rfl, by simp [one_value], by decide⟩
  · have hwhole : 0 < floor ⟨m, q⟩ ↔ 1 ≤ (m * 2 ^ q : ℚ) := by
      rw [floor_eq]
      exact Nat.floor_pos
    rw [hdecode]
    simp only [if_neg hm, hwhole]
    split
    · next hle =>
      refine ⟨one, rfl, ?_, by decide⟩
      rw [one_value, min_eq_right (by exact_mod_cast hle)]
      rfl
    · next hlt =>
      refine ⟨⟨m, q⟩, rfl, ?_, (BinaryFormat.holds_of_decode hdecode).lt⟩
      rw [min_eq_left (by exact_mod_cast (not_le.1 hlt).le)]
      rfl

/-- Doubles above zero that stand for the same number are read as the same fraction. -/
theorem ofFraction?_eq {bits bits' : UInt64} {v : WithBot (WithTop ℚ)}
    (hv : (BinaryFormat.double.decode bits.toNat).value? = some v)
    (hv' : (BinaryFormat.double.decode bits'.toNat).value? = some v) (hpos : 0 < v) :
    ofFraction? bits = ofFraction? bits' := by
  have hsame : BinaryFormat.double.decode bits.toNat = BinaryFormat.double.decode bits'.toNat := by
    obtain ⟨hdecode, rfl⟩ | ⟨m, q, hdecode, -, rfl⟩ := BinaryNumber.value?_pos_cases hv hpos <;>
      obtain ⟨hdecode', heq⟩ | ⟨m', q', hdecode', -, heq⟩ := BinaryNumber.value?_pos_cases hv' hpos
    · rw [hdecode, hdecode']
    · cases heq
    · cases heq
    · obtain ⟨rfl, rfl⟩ := (BinaryFormat.holds_of_decode hdecode).unique
        (BinaryFormat.holds_of_decode hdecode') (by exact_mod_cast heq)
      rw [hdecode, hdecode']
  rw [ofFraction?, ofFraction?, hsame]

def Fits (y : ℚ) : Prop := ∃ (m : ℕ) (q : ℤ), m < 2 ^ 64 ∧ y = m * 2 ^ q

/-- The second number is the first one rounded to a significand of 64 bits: none of these is
nearer, and if another is as near, the last bit of the full significand is even. -/
structure RoundsTo (x y : ℚ) : Prop where
  fits : Fits y
  nearest : ∀ z, Fits z → |y - x| ≤ |z - x|
  even : ∀ z, Fits z → |z - x| = |y - x| →
    z = y ∨ ∃ (m : ℕ) (q : ℤ), 2 ^ 63 ≤ m ∧ m < 2 ^ 64 ∧ Even m ∧ y = m * 2 ^ q

theorem fits_of_le {n : ℕ} (h : n ≤ 2 ^ 64) (q : ℤ) : Fits (n * 2 ^ q) := by
  rcases Nat.lt_or_eq_of_le h with hlt | rfl
  · exact ⟨n, q, hlt, rfl⟩
  · refine ⟨1, 64 + q, by decide, ?_⟩
    rw [zpow_add₀ two_ne_zero]
    norm_num

theorem fits_natCast {n : ℕ} (h : n ≤ 2 ^ 64) : Fits n := by
  simpa using fits_of_le h 0

/-- An even significand of 64 bits stays even if it is rounded up to the next power of two. -/
theorem full_of_even {n : ℕ} (hlow : 2 ^ 63 ≤ n) (hhigh : n ≤ 2 ^ 64) (heven : Even n) (q : ℤ) :
    ∃ (m : ℕ) (q' : ℤ), 2 ^ 63 ≤ m ∧ m < 2 ^ 64 ∧ Even m ∧ (n * 2 ^ q : ℚ) = m * 2 ^ q' := by
  rcases Nat.lt_or_eq_of_le hhigh with hlt | rfl
  · exact ⟨n, q, hlow, hlt, heven, rfl⟩
  · refine ⟨2 ^ 63, q + 1, by decide, by decide, by decide, ?_⟩
    rw [zpow_add_one₀ two_ne_zero]
    push_cast
    ring

namespace RoundsTo

variable {x x' y y' z : ℚ}

theorem le_of_le (h : RoundsTo x y) (hz : Fits z) (hle : x ≤ z) : y ≤ z := by
  by_contra hlt
  have hnearest := h.nearest z hz
  rw [abs_of_nonneg (by linarith), abs_of_nonneg (by linarith)] at hnearest
  linarith

theorem ge_of_ge (h : RoundsTo x y) (hz : Fits z) (hle : z ≤ x) : z ≤ y := by
  by_contra hlt
  have hnearest := h.nearest z hz
  rw [abs_of_nonpos (by linarith), abs_of_nonpos (by linarith)] at hnearest
  linarith

theorem eq_of_fits (h : RoundsTo x y) (hx : Fits x) : y = x :=
  le_antisymm (h.le_of_le hx le_rfl) (h.ge_of_ge hx le_rfl)

/-- A larger number is not rounded to a smaller one, since both would lie beyond the middle
between the two. -/
theorem le_of_lt (h : RoundsTo x y) (h' : RoundsTo x' y') (hlt : x < x') : y ≤ y' := by
  by_contra hgt
  have hnearest := sq_le_sq.2 (h.nearest y' h'.fits)
  have hnearest' := sq_le_sq.2 (h'.nearest y h.fits)
  nlinarith

end RoundsTo

theorem lt_two_pow_bitLength (n : Nat) : n < 2 ^ bitLength n := by
  rw [bitLength]
  split
  · next h => rw [h]; decide
  · exact Nat.lt_log2_self

theorem two_pow_le_of_bitLength {n k : Nat} (h : bitLength n = k + 1) : 2 ^ k ≤ n := by
  rw [bitLength] at h
  split at h
  · cases h
  · next hn =>
    cases h
    exact Nat.log2_self_le hn

/-- Distances on a coarser grid are those of integers on the finer one. -/
theorem distance_eq (n m k : ℕ) (e : ℤ) :
    |(n * 2 ^ (e + k) : ℚ) - m * 2 ^ e| = (((n * 2 ^ k : Nat) - m : Int).natAbs : ℚ) * 2 ^ e := by
  have hcast : (((n * 2 ^ k : Nat) - m : Int).natAbs : ℚ) = |(n * 2 ^ k : ℚ) - m| := by
    rw [Nat.cast_natAbs]
    push_cast
    rfl
  rw [hcast, zpow_add₀ two_ne_zero, zpow_natCast, mul_comm (2 ^ e : ℚ), ← mul_assoc, ← sub_mul,
    abs_mul, abs_of_pos (zpow_pos (zero_lt_two' ℚ) e)]

/-- Numbers with a significand of 64 bits lie on the grid of their own size or a coarser one. -/
theorem Fits.on_grid {z : ℚ} {u : ℤ} (hz : Fits z) (hle : 2 ^ 63 * 2 ^ u ≤ z) :
    ∃ n : ℕ, z = n * 2 ^ u := by
  obtain ⟨a, b, ha, rfl⟩ := hz
  have hpow : (2 : ℚ) ^ (63 + u) < 2 ^ (64 + b) := by
    rw [zpow_add₀ two_ne_zero, zpow_add₀ two_ne_zero]
    have : (a : ℚ) < 2 ^ 64 := by exact_mod_cast ha
    have hb := zpow_pos (zero_lt_two' ℚ) b
    calc (2 : ℚ) ^ (63 : ℤ) * 2 ^ u ≤ a * 2 ^ b := hle
      _ < 2 ^ (64 : ℤ) * 2 ^ b := mul_lt_mul_of_pos_right this hb
  have hexponents : 63 + u < 64 + b := (zpow_lt_zpow_iff_right₀ one_lt_two).1 hpow
  obtain ⟨k, rfl⟩ := Int.le.dest (show u ≤ b by omega)
  refine ⟨a * 2 ^ k, ?_⟩
  rw [zpow_add₀ two_ne_zero, zpow_natCast]
  push_cast
  ring

/-- Rounding to a coarser grid takes the nearest point, and of two that are as near an even one. -/
theorem grid_nearest (m k n : ℕ) (e : ℤ) :
    let r := Decimal.roundHalfEven m (2 ^ k)
    |(r * 2 ^ (e + k) : ℚ) - m * 2 ^ e| ≤ |(n * 2 ^ (e + k) : ℚ) - m * 2 ^ e| ∧
      (|(n * 2 ^ (e + k) : ℚ) - m * 2 ^ e| = |(r * 2 ^ (e + k) : ℚ) - m * 2 ^ e| →
        n = r ∨ Even r) := by
  obtain ⟨hle, htie⟩ := @Decimal.roundHalfEven_nearest m _ (Nat.two_pow_pos k) n
  have hscale : (0 : ℚ) < 2 ^ e := zpow_pos two_pos e
  simp only [distance_eq]
  constructor
  · exact mul_le_mul_of_nonneg_right (by exact_mod_cast hle) hscale.le
  · intro heq
    exact htie (by exact_mod_cast mul_right_cancel₀ hscale.ne' heq)

/-- A significand of more than 64 bits is rounded to the grid that its leading 64 bits make. -/
theorem roundsTo_of_excess {m k : ℕ} (hlow : 2 ^ (63 + k) ≤ m) (hhigh : m < 2 ^ (64 + k)) (e : ℤ) :
    RoundsTo (m * 2 ^ e) (Decimal.roundHalfEven m (2 ^ k) * 2 ^ (e + k)) := by
  have hunit : 0 < 2 ^ k := Nat.two_pow_pos k
  have hleast : 2 ^ 63 ≤ m / 2 ^ k := (Nat.le_div_iff_mul_le hunit).2 (by rwa [← Nat.pow_add])
  have hmost : m / 2 ^ k < 2 ^ 64 := (Nat.div_lt_iff_lt_mul hunit).2 (by rwa [← Nat.pow_add])
  have hneighbour := (Decimal.roundHalfEven_cases m (2 ^ k)).1
  have hgrid (n : ℕ) := grid_nearest m k n e
  generalize Decimal.roundHalfEven m (2 ^ k) = r at hneighbour hgrid
  -- What lies below this grid lies below its first point, which is nearer.
  have hbelow {z : ℚ} (hz : ¬2 ^ 63 * 2 ^ (e + k) ≤ z) :
      |(r * 2 ^ (e + k) : ℚ) - m * 2 ^ e| < |z - m * 2 ^ e| := by
    have hfirst : (2 ^ 63 * 2 ^ (e + k) : ℚ) ≤ m * 2 ^ e := by
      rw [zpow_add₀ two_ne_zero, zpow_natCast, mul_comm (2 ^ e : ℚ), ← mul_assoc, ← pow_add]
      exact mul_le_mul_of_nonneg_right (by exact_mod_cast hlow) (zpow_pos two_pos e).le
    have hle := (hgrid (2 ^ 63)).1
    rw [Nat.cast_pow, Nat.cast_ofNat, abs_of_nonpos (sub_nonpos.2 hfirst)] at hle
    have hz := not_le.1 hz
    rw [abs_of_neg (sub_neg.2 (hz.trans_le hfirst))]
    linarith
  refine ⟨fits_of_le (by omega) _, fun z hz => ?_, fun z hz heq => ?_⟩
  · by_cases hle : 2 ^ 63 * 2 ^ (e + k) ≤ z
    · obtain ⟨n, rfl⟩ := hz.on_grid hle
      exact (hgrid n).1
    · exact (hbelow hle).le
  · by_cases hle : 2 ^ 63 * 2 ^ (e + k) ≤ z
    · obtain ⟨n, rfl⟩ := hz.on_grid hle
      obtain rfl | heven := (hgrid n).2 heq
      · exact .inl rfl
      · exact .inr (full_of_even (by omega) (by omega) heven _)
    · exact absurd heq (hbelow hle).ne'

/-- The 64 bits that are kept are those of the nearest number that has no more. -/
theorem roundsTo_round (x : Dyadic) : RoundsTo x.value x.round.value := by
  obtain ⟨m, e⟩ := x
  have hlt := lt_two_pow_bitLength m
  obtain ⟨k, hk⟩ : ∃ k, bitLength m - 64 = k := ⟨_, rfl⟩
  simp only [value, round, Nat.pow_eq, hk]
  cases k with
  | zero =>
    have hm : m < 2 ^ 64 := Nat.lt_of_lt_of_le hlt (Nat.pow_le_pow_right (by decide) (by omega))
    have hsame : Decimal.roundHalfEven m (2 ^ 0) = m := by
      simp [Decimal.roundHalfEven, Nat.mod_one]
    rw [hsame, Int.ofNat_zero, Int.add_zero]
    refine ⟨⟨m, e, hm, rfl⟩, fun z _ => ?_, fun z _ heq => .inl ?_⟩
    · rw [sub_self, abs_zero]
      exact abs_nonneg _
    · rw [sub_self, abs_zero, abs_eq_zero] at heq
      linarith
  | succ k =>
    have hbits : bitLength m = 63 + (k + 1) + 1 := by omega
    refine roundsTo_of_excess (two_pow_le_of_bitLength hbits) ?_ e
    rw [hbits] at hlt
    exact hlt.trans_eq (by congr 1; omega)

end Dyadic

end BlockContainer
