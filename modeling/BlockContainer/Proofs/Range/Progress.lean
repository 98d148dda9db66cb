import BlockContainer.Proofs.Range.Arbitration
import Mathlib.Algebra.Order.Field.Rat

/-! # Progress through a range

Progress is a quotient of offsets, and exact as a rational number. It lies between zero and one.
Whatever is asked of a tracker, its last record only moves on, its stop offset only comes nearer
and its mark stays set. So the progress never falls. Where no record is reported before the start
of the range, the distances that are divided are the true ones.
-/
namespace BlockContainer

instance : Measure ℚ where
  ofOffset n := n.toNat
  add := (· + ·)
  div := (· / ·)
  atMost a b := a ≤ b

/-- Rational numbers, with none for a quotient by zero and for what is computed from it. -/
instance : Measure (Option ℚ) where
  ofOffset n := some n.toNat
  add := Option.map₂ (· + ·)
  div a b := if b = some 0 then none else Option.map₂ (· / ·) a b
  atMost a b := (Option.map₂ (fun x y => decide (x ≤ y)) a b).getD true

namespace Measure

@[simp] theorem zero_rat : (zero : ℚ) = 0 := rfl

@[simp] theorem one_rat : (one : ℚ) = 1 := rfl

theorem clamp_rat (x : ℚ) : clamp x = max 0 (min x 1) := by
  by_cases hzero : 0 ≤ x
  · by_cases hone : x ≤ 1
    · simp [clamp, atMost, hzero, hone]
    · simp [clamp, atMost, hzero, hone, le_of_not_ge hone]
  · simp [clamp, atMost, hzero, le_of_not_ge hzero]

@[simp] theorem ofOffset_some (n : UInt64) : (ofOffset n : Option ℚ) = some (ofOffset n) := rfl

theorem div_some {x y : ℚ} (h : y ≠ 0) : div (some x) (some y) = some (div x y) := by
  have hsome : ¬some y = some 0 := by simpa using h
  exact if_neg hsome

theorem clamp_some (x : ℚ) : clamp (some x) = some (clamp x) := by
  have hmost (a b : ℚ) : atMost (some a) (some b) = atMost a b := rfl
  unfold clamp zero one
  simp only [ofOffset_some, hmost]
  split
  · rfl
  · split <;> rfl

end Measure

namespace RangeTracker

variable {t t' t'' : RangeTracker}

theorem fractionConsumed_rat (t : RangeTracker) :
    t.fractionConsumed ℚ =
      if t.done then 1
      else match t.last? with
        | none => 0
        | some last =>
          if t.stop = t.start then 0
          else max 0 (min (((last - t.start).toNat : ℚ) / (t.stop - t.start).toNat) 1) := by
  unfold fractionConsumed
  simp only [Measure.clamp_rat]
  rfl

theorem fractionConsumed_bounds (t : RangeTracker) :
    0 ≤ t.fractionConsumed ℚ ∧ t.fractionConsumed ℚ ≤ 1 := by
  rw [fractionConsumed_rat]
  split
  · simp
  · split
    · simp
    · split
      · simp
      · exact ⟨le_max_left 0 _, max_le zero_le_one (min_le_right _ _)⟩

theorem fractionConsumed_of_done (h : t.done = true) : t.fractionConsumed ℚ = 1 := by
  rw [fractionConsumed_rat, if_pos h]

theorem fractionConsumed_of_idle (hdone : ¬t.done = true) (h : t.last? = none ∨ t.stop = t.start) :
    t.fractionConsumed ℚ = 0 := by
  rw [fractionConsumed_rat, if_neg hdone]
  rcases h with hnone | hempty
  · rw [hnone]
  · split
    · rfl
    · exact if_pos hempty

theorem fractionConsumed_within (hdone : ¬t.done = true) {last : UInt64}
    (hlast : t.last? = some last) (hempty : ¬t.stop = t.start) :
    t.fractionConsumed ℚ =
      max 0 (min (((last - t.start).toNat : ℚ) / (t.stop - t.start).toNat) 1) := by
  rw [fractionConsumed_rat, if_neg hdone, hlast]
  exact if_neg hempty

structure MovesOn (t t' : RangeTracker) : Prop where
  start_eq : t'.start = t.start
  stop_le : t'.stop ≤ t.stop
  cut : t'.stop = t.stop ∨ t.start < t'.stop
  last : ∀ last ∈ t.last?, ∃ last' ∈ t'.last?, last ≤ last'
  done : t.done = true → t'.done = true

namespace MovesOn

theorem refl (t : RangeTracker) : MovesOn t t where
  start_eq := rfl
  stop_le := UInt64.le_refl _
  cut := .inl rfl
  last last hlast := ⟨last, hlast, UInt64.le_refl _⟩
  done hdone := hdone

theorem trans (h : MovesOn t t') (h' : MovesOn t' t'') : MovesOn t t'' where
  start_eq := h'.start_eq.trans h.start_eq
  stop_le := UInt64.le_trans h'.stop_le h.stop_le
  cut := by
    rcases h'.cut with hsame | hbehind
    · rw [hsame]
      exact h.cut
    · rw [← h.start_eq]
      exact .inr hbehind
  last last hlast := by
    obtain ⟨last', hlast', hle⟩ := h.last last hlast
    obtain ⟨last'', hlast'', hle'⟩ := h'.last last' hlast'
    exact ⟨last'', hlast'', UInt64.le_trans hle hle'⟩
  done hdone := h'.done (h.done hdone)

/-- Time passes with each call. -/
theorem perform (t : RangeTracker) (c : Call) : MovesOn t (t.perform c).2 := by
  rcases t.perform_cases c with
    ⟨-, hc⟩ | ⟨-, hc⟩ | ⟨offset, hc, horder⟩ | ⟨cut, hc, hstart, hstop, -⟩
  · rw [hc]
    exact refl t
  · rw [hc]
    exact { refl t with done := fun _ => rfl }
  · rw [hc]
    exact { refl t with last := fun last hlast => ⟨offset, rfl, horder last hlast⟩ }
  · rw [hc]
    exact { refl t with stop_le := UInt64.le_of_lt hstop, cut := .inr hstart }

/-- A range that is not empty gets no wider, and not empty. -/
theorem span_le (h : MovesOn t t') (hempty : ¬t.stop = t.start) : ¬t'.stop = t.start ∧
    0 < (t'.stop - t.start).toNat ∧ (t'.stop - t.start).toNat ≤ (t.stop - t.start).toNat := by
  have hcut := h.cut
  have hnearer := h.stop_le
  have hstart := t.start.toNat_lt
  have hstop := t.stop.toNat_lt
  simp only [← UInt64.toNat_inj, UInt64.lt_iff_toNat_lt, UInt64.le_iff_toNat_le] at *
  rw [UInt64.toNat_sub, UInt64.toNat_sub]
  omega

/-- The share of the range before the last record grows as the record moves on and the stop
offset comes nearer. -/
theorem fraction_le (h : MovesOn t t') (hbehind : ∀ last ∈ t.last?, t.start ≤ last) :
    t.fractionConsumed ℚ ≤ t'.fractionConsumed ℚ := by
  by_cases hdone' : t'.done = true
  · rw [fractionConsumed_of_done hdone']
    exact t.fractionConsumed_bounds.2
  · have hdone : ¬t.done = true := fun hdone => hdone' (h.done hdone)
    by_cases hidle : t.last? = none ∨ t.stop = t.start
    · rw [fractionConsumed_of_idle hdone hidle]
      exact t'.fractionConsumed_bounds.1
    · obtain ⟨hreported, hempty⟩ := not_or.1 hidle
      obtain ⟨last, hlast⟩ := Option.ne_none_iff_exists'.1 hreported
      obtain ⟨last', hlast', hle⟩ := h.last last hlast
      obtain ⟨hempty', hspan', hspan⟩ := h.span_le hempty
      have hstart := hbehind last hlast
      have hbefore : (last - t.start).toNat ≤ (last' - t.start).toNat := by
        rw [UInt64.toNat_sub_of_le _ _ hstart,
          UInt64.toNat_sub_of_le _ _ (UInt64.le_trans hstart hle)]
        exact Nat.sub_le_sub_right (UInt64.le_iff_toNat_le.1 hle) _
      have hquotient : ((last - t.start).toNat : ℚ) / (t.stop - t.start).toNat ≤
          (last' - t.start).toNat / (t'.stop - t.start).toNat :=
        div_le_div₀ (Nat.cast_nonneg _) (Nat.cast_le.2 hbefore) (Nat.cast_pos.2 hspan')
          (Nat.cast_le.2 hspan)
      rw [fractionConsumed_within hdone hlast hempty, fractionConsumed_within hdone' hlast' ?_,
        h.start_eq]
      · exact max_le_max le_rfl (min_le_min hquotient le_rfl)
      · rwa [h.start_eq]

end MovesOn

theorem MovesOn.after (t : RangeTracker) (calls : List Call) : MovesOn t (t.after calls) := by
  induction calls generalizing t with
  | nil => exact .refl t
  | cons c rest ih => exact (MovesOn.perform t c).trans (ih _)

/-- There is no division by zero. -/
theorem fractionConsumed_checked (t : RangeTracker) :
    t.fractionConsumed (Option ℚ) = some (t.fractionConsumed ℚ) := by
  unfold fractionConsumed
  split
  · rfl
  · split
    · rfl
    · split
      · rfl
      · next hempty =>
        have hspan : (Measure.ofOffset (t.stop - t.start) : ℚ) ≠ 0 :=
          Nat.cast_ne_zero.2 (Nat.ne_of_gt ((MovesOn.refl t).span_le hempty).2.1)
        rw [Measure.ofOffset_some, Measure.ofOffset_some, Measure.div_some hspan,
          Measure.clamp_some]

/-- The share of the range before the last record, by differences of numbers without bound. -/
def share (t : RangeTracker) : ℚ :=
  if t.done then 1
  else match t.last? with
    | none => 0
    | some last =>
      if t.stop = t.start then 0
      else min (((last.toNat : ℚ) - t.start.toNat) / ((t.stop.toNat : ℚ) - t.start.toNat)) 1

theorem cast_sub {a b : UInt64} (h : a ≤ b) :
    (((b - a).toNat : ℕ) : ℚ) = (b.toNat : ℚ) - a.toNat := by
  rw [UInt64.toNat_sub_of_le _ _ h, Nat.cast_sub (UInt64.le_iff_toNat_le.1 h)]

theorem fractionConsumed_eq_share (hstop : t.start ≤ t.stop)
    (hbehind : ∀ last ∈ t.last?, t.start ≤ last) : t.fractionConsumed ℚ = t.share := by
  rw [fractionConsumed_rat, share]
  split
  · rfl
  · split
    · rfl
    · next last hlast =>
      split
      · rfl
      · have hquotient : (0 : ℚ) ≤ ((last - t.start).toNat : ℚ) / (t.stop - t.start).toNat :=
          div_nonneg (Nat.cast_nonneg _) (Nat.cast_nonneg _)
        rw [max_eq_right (le_min hquotient zero_le_one), cast_sub (hbehind last hlast),
          cast_sub hstop]

def Call.From (start : UInt64) : Call → Prop
  | .report _ offset => start ≤ offset
  | .split _ | .markDone => True

instance (start : UInt64) : DecidablePred (Call.From start)
  | .report _ offset => inferInstanceAs (Decidable (start ≤ offset))
  | .split _ | .markDone => inferInstanceAs (Decidable True)

theorem behind_perform {c : Call} (hfrom : c.From t.start)
    (hbehind : ∀ last ∈ t.last?, t.start ≤ last) :
    ∀ last ∈ (t.perform c).2.last?, t.start ≤ last := by
  cases c with
  | report atSplitPoint offset =>
    rcases tryReturn_cases atSplitPoint offset t with ⟨cause, h⟩ | ⟨h, -, -⟩ | ⟨h, -, -⟩ <;>
      simp only [perform, h]
    · exact hbehind
    · exact hbehind
    · rintro last ⟨⟩
      exact hfrom
  | split fraction =>
    rcases trySplit_cases fraction t with h | ⟨cut, h, -⟩ <;> simp only [perform, h]
    · exact hbehind
    · exact hbehind
  | markDone => exact hbehind

theorem behind_after {calls : List Call} (hfrom : ∀ c ∈ calls, c.From t.start)
    (hbehind : ∀ last ∈ t.last?, t.start ≤ last) :
    ∀ last ∈ (t.after calls).last?, t.start ≤ last := by
  induction calls generalizing t with
  | nil => exact hbehind
  | cons c rest ih =>
    obtain ⟨hc, hrest⟩ := List.forall_mem_cons.1 hfrom
    have hstart := t.perform_start c
    rw [← hstart]
    refine ih (fun c hmem => ?_) fun last hlast => ?_
    · rw [hstart]
      exact hrest c hmem
    · rw [hstart]
      exact behind_perform hc hbehind last hlast

theorem done_of_refused {atSplitPoint : Bool} {offset : UInt64}
    (h : t.answer (.report atSplitPoint offset) = .reported false) :
    (t.perform (.report atSplitPoint offset)).2.done = true := by
  rcases tryReturn_cases atSplitPoint offset t with ⟨cause, hc⟩ | ⟨hc, -⟩ | ⟨hc, -⟩
  · simp [answer, perform, hc] at h
  · simp [perform, hc]
  · simp [answer, perform, hc] at h

/-- A tracker with its mark set keeps it. -/
theorem fractionConsumed_after_done (h : t.done = true) (calls : List Call) :
    (t.after calls).fractionConsumed ℚ = 1 :=
  fractionConsumed_of_done ((MovesOn.after t calls).done h)

/-- What is told of the progress of a tracker behind a history of calls. -/
structure Progresses (t : RangeTracker) (calls : List Call) : Prop where
  divides : (t.after calls).fractionConsumed (Option ℚ) = some ((t.after calls).fractionConsumed ℚ)
  subtracts : (∀ last ∈ (t.after calls).last?, t.start ≤ last) ∧ t.start ≤ (t.after calls).stop
  value : (t.after calls).fractionConsumed ℚ = (t.after calls).share
  bounds : 0 ≤ (t.after calls).fractionConsumed ℚ ∧ (t.after calls).fractionConsumed ℚ ≤ 1
  never_falls : ∀ later,
    (t.after calls).fractionConsumed ℚ ≤ (t.after (calls ++ later)).fractionConsumed ℚ
  one_of_refused : ∀ atSplitPoint offset later,
    (t.after calls).answer (.report atSplitPoint offset) = .reported false →
    (t.after (calls ++ .report atSplitPoint offset :: later)).fractionConsumed ℚ = 1
  one_of_marked : ∀ later, (t.after (calls ++ .markDone :: later)).fractionConsumed ℚ = 1

theorem start_of_create {start stop : UInt64} (h : create start stop = .ok t) : t.start = start := by
  rw [create] at h
  split at h <;> cases h
  rfl

theorem progresses_of_create {start stop : UInt64} (hcreate : create start stop = .ok t)
    {calls : List Call} (hfrom : ∀ c ∈ calls, c.From start) : Progresses t calls := by
  have hle : start ≤ stop := by
    rw [create] at hcreate
    split at hcreate
    · cases hcreate
    · next hle => exact UInt64.not_lt.1 hle
  obtain rfl : ofRange start stop = t := by
    rw [create, if_neg (UInt64.not_lt.2 hle)] at hcreate
    cases hcreate
    rfl
  have hbehind : ∀ last ∈ ((ofRange start stop).after calls).last?, start ≤ last :=
    behind_after hfrom (by simp [ofRange])
  have hstop : start ≤ ((ofRange start stop).after calls).stop :=
    start_le_after (t := ofRange start stop) hle calls
  have hstart : ((ofRange start stop).after calls).start = start := after_start _ _
  refine
    { divides := fractionConsumed_checked _
      subtracts := ⟨hbehind, hstop⟩
      value := ?_
      bounds := fractionConsumed_bounds _
      never_falls := fun later => ?_
      one_of_refused := fun atSplitPoint offset later hrefused => ?_
      one_of_marked := fun later => ?_ }
  · refine fractionConsumed_eq_share ?_ ?_
    · rwa [hstart]
    · rwa [hstart]
  · rw [after_append]
    refine (MovesOn.after _ later).fraction_le ?_
    rwa [hstart]
  · rw [after_append]
    exact fractionConsumed_after_done (done_of_refused hrefused) later
  · rw [after_append]
    exact fractionConsumed_after_done (t := ((ofRange start stop).after calls).markDone) rfl later

end RangeTracker
end BlockContainer
