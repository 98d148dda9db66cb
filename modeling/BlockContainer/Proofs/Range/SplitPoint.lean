import BlockContainer.Proofs.Number.Rounding

/-! # Where a fraction cuts

The product of a fraction and the length of a range is rounded once, to a significand of 64 bits,
and an offset has no more. So the cut lies in the range and next to where the exact product
cuts, the whole range is cut at its end, and a larger fraction never cuts earlier.
-/
namespace BlockContainer

def exactCut (start stop : UInt64) (share : ℚ) : ℕ :=
  start.toNat + ⌊share * (stop.toNat - start.toNat : ℕ)⌋₊

/-- The cut at a fraction of the bytes from `start` to `stop`: the product is rounded once, neither
it nor the sum leaves a word, and the cut lies in the range and next to the exact one. -/
structure Cuts (start stop : UInt64) (f : Dyadic) : Prop where
  rounded : Dyadic.RoundsTo (f.value * (stop.toNat - start.toNat : ℕ))
    (f.scale (stop - start).toNat).round.value
  in_word : (f.scale (stop - start).toNat).round.floor < 2 ^ 64
  sum_in_word : start.toNat + (f.scale (stop - start).toNat).round.floor < 2 ^ 64
  start_le : start ≤ splitPoint start stop f
  le_stop : splitPoint start stop f ≤ stop
  near : (splitPoint start stop f).toNat = exactCut start stop f.value ∨
    (splitPoint start stop f).toNat = exactCut start stop f.value + 1
  exact_of_short : stop.toNat - start.toNat < 2 ^ 11 →
    (splitPoint start stop f).toNat = exactCut start stop f.value

section Cuts

variable {start stop : UInt64} {f f' : Dyadic}

/-- The product is rounded once, and not beyond the length of the range. -/
theorem rounded_product (hrange : start ≤ stop) (f : Dyadic) :
    Dyadic.RoundsTo (f.value * (stop.toNat - start.toNat : ℕ))
      (f.scale (stop - start).toNat).round.value := by
  rw [← UInt64.toNat_sub_of_le _ _ hrange, ← Dyadic.value_scale]
  exact Dyadic.roundsTo_round _

theorem product_le (hrange : start ≤ stop) (hone : f.value ≤ 1) :
    (f.scale (stop - start).toNat).round.value ≤ (stop.toNat - start.toNat : ℕ) := by
  have hstop := stop.toNat_lt
  refine (rounded_product hrange f).le_of_le (Dyadic.fits_natCast (by omega)) ?_
  exact mul_le_of_le_one_left (Nat.cast_nonneg _) hone

theorem toNat_splitPoint (hrange : start ≤ stop) (hone : f.value ≤ 1) :
    (splitPoint start stop f).toNat =
        start.toNat + ⌊(f.scale (stop - start).toNat).round.value⌋₊ ∧
      start.toNat + ⌊(f.scale (stop - start).toNat).round.value⌋₊ ≤ stop.toNat := by
  have hle := UInt64.le_iff_toNat_le.1 hrange
  have hstop := stop.toNat_lt
  have hfloor := Nat.floor_le_of_le (product_le hrange hone)
  refine ⟨?_, by omega⟩
  rw [splitPoint, UInt64.toNat_add, UInt64.toNat_ofNat', Dyadic.floor_eq]
  omega

theorem cuts_of_le_one (hrange : start ≤ stop) (hone : f.value ≤ 1)
    (hsignificand : f.significand < 2 ^ 53) : Cuts start stop f := by
  have hrounded := rounded_product hrange f
  obtain ⟨hpoint, hle⟩ := toNat_splitPoint hrange hone
  have hstop := stop.toNat_lt
  have hfloor := Dyadic.floor_eq (f.scale (stop - start).toNat).round
  have hproduct : 0 ≤ f.value * (stop.toNat - start.toNat : ℕ) :=
    mul_nonneg f.value_nonneg (Nat.cast_nonneg _)
  have hshort : f.value * (stop.toNat - start.toNat : ℕ) ≤ (stop.toNat - start.toNat : ℕ) :=
    mul_le_of_le_one_left (Nat.cast_nonneg _) hone
  have hexact := Nat.floor_le_of_le hshort
  refine ⟨hrounded, by omega, by omega, ?_, ?_, ?_, fun hspan => ?_⟩
  · rw [UInt64.le_iff_toNat_le]
    omega
  · rw [UInt64.le_iff_toNat_le]
    omega
  · -- The integers next to the product have a place in 64 bits, so rounding stays between them.
    have hleast := Nat.le_floor (hrounded.ge_of_ge (Dyadic.fits_natCast (by omega))
      (Nat.floor_le hproduct))
    have hmost := Nat.floor_le_of_le (hrounded.le_of_le
      (Dyadic.fits_natCast (n := ⌊f.value * (stop.toNat - start.toNat : ℕ)⌋₊ + 1) (by omega))
      (by exact_mod_cast (Nat.lt_floor_add_one _).le))
    rw [exactCut]
    omega
  · have hfits : Dyadic.Fits (f.value * (stop.toNat - start.toNat : ℕ)) := by
      refine ⟨f.significand * (stop.toNat - start.toNat), f.exponent, ?_, ?_⟩
      · calc f.significand * (stop.toNat - start.toNat) < 2 ^ 53 * 2 ^ 11 :=
            Nat.mul_lt_mul'' hsignificand hspan
          _ = 2 ^ 64 := by norm_num
      · rw [Dyadic.value, Nat.cast_mul]
        ring
    rw [hpoint, hrounded.eq_of_fits hfits, exactCut]

theorem splitPoint_whole (hrange : start ≤ stop) (hone : f.value = 1) :
    splitPoint start stop f = stop := by
  have hle := UInt64.le_iff_toNat_le.1 hrange
  have hstop := stop.toNat_lt
  have hrounded := rounded_product hrange f
  rw [hone, one_mul] at hrounded
  have hspan := hrounded.eq_of_fits (Dyadic.fits_natCast (by omega))
  obtain ⟨hpoint, -⟩ := toNat_splitPoint hrange hone.le
  rw [hspan, Nat.floor_natCast] at hpoint
  rw [← UInt64.toNat_inj]
  omega

theorem splitPoint_le_of_lt (hrange : start ≤ stop) (hone : f'.value ≤ 1)
    (hlt : f.value < f'.value) : splitPoint start stop f ≤ splitPoint start stop f' := by
  have hrounded := rounded_product hrange f
  have hrounded' := rounded_product hrange f'
  have hle : (f.scale (stop - start).toNat).round.value ≤
      (f'.scale (stop - start).toNat).round.value := by
    rcases Nat.eq_zero_or_pos (stop.toNat - start.toNat) with hzero | hpos
    · rw [hzero, Nat.cast_zero, mul_zero] at hrounded hrounded'
      have hfits : Dyadic.Fits 0 := by exact_mod_cast Dyadic.fits_natCast (Nat.zero_le _)
      rw [hrounded.eq_of_fits hfits, hrounded'.eq_of_fits hfits]
    · exact hrounded.le_of_lt hrounded' (mul_lt_mul_of_pos_right hlt (by exact_mod_cast hpos))
  rw [UInt64.le_iff_toNat_le, (toNat_splitPoint hrange (hlt.le.trans hone)).1,
    (toNat_splitPoint hrange hone).1]
  exact Nat.add_le_add_left (Nat.floor_le_floor hle) _

/-- A fraction above zero cuts inside the range, at the place where the exact product cuts or one
byte behind it, and in a short range just there. From one on it cuts at the end of the range, and
a larger fraction does not cut earlier. -/
theorem splitPoint_near_exact (hrange : start ≤ stop) :
    (∀ bits v, (BinaryFormat.double.decode bits.toNat).value? = some v → 0 < v →
      ∃ f, Dyadic.ofFraction? bits = some f ∧
        ((f.value : WithTop ℚ) : WithBot (WithTop ℚ)) = min v 1 ∧ Cuts start stop f ∧
        (1 ≤ v → splitPoint start stop f = stop)) ∧
    ∀ bits bits' v v' f f', (BinaryFormat.double.decode bits.toNat).value? = some v →
      (BinaryFormat.double.decode bits'.toNat).value? = some v' → 0 < v → v ≤ v' →
      Dyadic.ofFraction? bits = some f → Dyadic.ofFraction? bits' = some f' →
      splitPoint start stop f ≤ splitPoint start stop f' := by
  have hone {f : Dyadic} {v : WithBot (WithTop ℚ)}
      (h : ((f.value : WithTop ℚ) : WithBot (WithTop ℚ)) = min v 1) : f.value ≤ 1 := by
    have := h.trans_le (min_le_right _ _)
    exact_mod_cast this
  have hwhole {f : Dyadic} {v : WithBot (WithTop ℚ)}
      (h : ((f.value : WithTop ℚ) : WithBot (WithTop ℚ)) = min v 1) (hv : 1 ≤ v) :
      splitPoint start stop f = stop := by
    rw [min_eq_right hv] at h
    exact splitPoint_whole hrange (by exact_mod_cast h)
  constructor
  · intro bits v hv hpos
    obtain ⟨f, hf, hshare, hsignificand⟩ := Dyadic.ofFraction?_of_pos hv hpos
    exact ⟨f, hf, hshare, cuts_of_le_one hrange (hone hshare) hsignificand, hwhole hshare⟩
  · intro bits bits' v v' f f' hv hv' hpos hle hf hf'
    obtain ⟨_, hread, hshare, -⟩ := Dyadic.ofFraction?_of_pos hv hpos
    obtain rfl := Option.some.inj (hf.symm.trans hread)
    obtain ⟨_, hread', hshare', -⟩ := Dyadic.ofFraction?_of_pos hv' (hpos.trans_le hle)
    obtain rfl := Option.some.inj (hf'.symm.trans hread')
    rcases hle.eq_or_lt with rfl | hlt
    · rw [Dyadic.ofFraction?_eq hv hv' hpos] at hf
      rw [Option.some.inj (hf.symm.trans hf')]
      exact UInt64.le_refl _
    · rcases le_or_gt 1 v with hge | hless
      · rw [hwhole hshare hge, hwhole hshare' (hge.trans hle)]
        exact UInt64.le_refl _
      · refine splitPoint_le_of_lt hrange (hone hshare') ?_
        have : min v 1 < min v' 1 := by
          rw [min_eq_left hless.le]
          exact lt_min hlt hless
        rw [← hshare, ← hshare'] at this
        exact_mod_cast this

def belowOne : Dyadic := ⟨9007199254740991, -53⟩

/-- In a range of this length it cuts one byte behind the exact place. -/
theorem splitPoint_near_exact_below_one :
    (5 : UInt64) ≤ 9225623836668461061 ∧
    Dyadic.ofFraction? 0x3fefffffffffffff = some belowOne ∧
    Cuts 5 9225623836668461061 belowOne ∧
    (splitPoint 5 9225623836668461061 belowOne).toNat =
      exactCut 5 9225623836668461061 belowOne.value + 1 := by
  have hrange : (5 : UInt64) ≤ 9225623836668461061 := by decide
  have hread : Dyadic.ofFraction? 0x3fefffffffffffff = some belowOne := by decide
  have hvalue : (BinaryFormat.double.decode (0x3fefffffffffffff : UInt64).toNat).value? =
      some (belowOne.value : WithTop ℚ) := rfl
  have hpos : (0 : WithBot (WithTop ℚ)) < (belowOne.value : WithTop ℚ) := by
    have : 0 < belowOne.value := by norm_num [belowOne, Dyadic.value]
    exact_mod_cast this
  obtain ⟨f, hf, -, hcuts, -⟩ := (splitPoint_near_exact hrange).1 _ _ hvalue hpos
  obtain rfl := Option.some.inj (hread.symm.trans hf)
  have hexact : exactCut 5 9225623836668461061 belowOne.value = 9225623836668460036 := by
    rw [exactCut, ← Dyadic.value_scale, ← Dyadic.floor_eq]
    decide
  have hpoint : (splitPoint 5 9225623836668461061 belowOne).toNat = 9225623836668460037 := by decide
  exact ⟨hrange, hread, hcuts, by rw [hpoint, hexact]⟩

end Cuts
end BlockContainer
