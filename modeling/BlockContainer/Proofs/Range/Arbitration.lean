import BlockContainer.Proofs.Runs
import BlockContainer.Range.Tracker

/-! # Arbitration between a reader and its controller

The reader reports records and the controller splits, in any order. What each call can do
is said once, by one inversion lemma a call; what a whole history of calls preserves is
derived from that. Ranges that are given up lie one below the other, and together with the
range that is kept they cover the original range once. No later split goes back on a
report: what was granted stays below the stop offset and what was refused at or above it.
-/
namespace BlockContainer

namespace OffsetRange

def Contains (r : OffsetRange) (x : UInt64) : Prop := r.start ≤ x ∧ x < r.stop

instance (r : OffsetRange) (x : UInt64) : Decidable (r.Contains x) :=
  inferInstanceAs (Decidable (_ ∧ _))

/-- Non-empty ranges that go down from `high` to `low`, each ending where the one before
it starts. -/
def Descends (high : UInt64) : List OffsetRange → UInt64 → Prop
  | [], low => high = low
  | r :: rest, low => r.stop = high ∧ r.start < r.stop ∧ Descends r.start rest low

theorem Descends.append {high middle low : UInt64} {l m : List OffsetRange}
    (hl : Descends high l middle) (hm : Descends middle m low) : Descends high (l ++ m) low := by
  induction l generalizing high with
  | nil =>
    obtain rfl : high = middle := hl
    exact hm
  | cons r rest ih => exact ⟨hl.1, hl.2.1, ih hl.2.2⟩

theorem Descends.le {high low : UInt64} {l : List OffsetRange} (h : Descends high l low) :
    low ≤ high := by
  induction l generalizing high with
  | nil =>
    obtain rfl : high = low := h
    exact UInt64.le_refl _
  | cons r rest ih =>
    obtain ⟨rfl, hlt, hrest⟩ := h
    exact UInt64.le_trans (ih hrest) (UInt64.le_of_lt hlt)

/-- An offset lies in one of the ranges if it lies between their ends, else in none. -/
theorem Descends.countP {high low : UInt64} {l : List OffsetRange} (h : Descends high l low)
    (x : UInt64) :
    l.countP (fun r => r.Contains x) = if low ≤ x ∧ x < high then 1 else 0 := by
  induction l generalizing high with
  | nil =>
    obtain rfl : high = low := h
    have hnot : ¬(high ≤ x ∧ x < high) := fun hx => UInt64.not_lt.2 hx.1 hx.2
    simp [hnot]
  | cons r rest ih =>
    obtain ⟨rfl, hlt, hrest⟩ := h
    have hle := hrest.le
    rw [List.countP_cons, ih hrest]
    simp only [Contains, decide_eq_true_eq, UInt64.lt_iff_toNat_lt, UInt64.le_iff_toNat_le] at *
    split <;> split <;> split <;> omega

end OffsetRange

namespace RangeTracker

inductive Call where
  | report (atSplitPoint : Bool) (offset : UInt64)
  | split (fraction : UInt64)
  | markDone
deriving DecidableEq, Repr

inductive Answer where
  | reported (granted : Bool)
  | failed (cause : Error)
  | split (residual? : Option OffsetRange)
  | marked
deriving DecidableEq, Repr

def perform (t : RangeTracker) : Call → Answer × RangeTracker
  | .report atSplitPoint offset =>
    match tryReturn atSplitPoint offset t with
    | .ok granted t => (.reported granted, t)
    | .error e t => (.failed e, t)
  | .split fraction => (.split (t.trySplit fraction).1, (t.trySplit fraction).2)
  | .markDone => (.marked, t.markDone)

def answer (t : RangeTracker) (c : Call) : Answer := (t.perform c).1

def after (t : RangeTracker) (calls : List Call) : RangeTracker :=
  calls.foldl (fun t c => (t.perform c).2) t

def Answer.residual? : Answer → Option OffsetRange
  | split residual? => residual?
  | _ => none

def residuals (t : RangeTracker) : List Call → List OffsetRange
  | [] => []
  | c :: rest => (t.answer c).residual?.toList ++ residuals (t.perform c).2 rest

theorem after_append (t : RangeTracker) (l m : List Call) :
    t.after (l ++ m) = (t.after l).after m := by
  simp [after]

/-- A split changes nothing, or it moves the stop offset down to a cut that lies behind
the start and the last record. -/
theorem trySplit_cases (fraction : UInt64) (t : RangeTracker) :
    t.trySplit fraction = (none, t) ∨
      ∃ cut, t.trySplit fraction = (some ⟨cut, t.stop⟩, { t with stop := cut }) ∧
        t.done = false ∧ t.start < cut ∧ cut < t.stop ∧ ∀ last ∈ t.last?, last < cut := by
  rw [trySplit]
  cases hcut : t.splitOffset? fraction with
  | none => exact .inl rfl
  | some cut =>
    refine .inr ⟨cut, rfl, ?_⟩
    simp only [splitOffset?, Option.bind_eq_bind, Option.bind_eq_some_iff] at hcut
    obtain ⟨f, -, hcut⟩ := hcut
    cases hdone : t.done with
    | true => simp [hdone] at hcut
    | false =>
      by_cases hstart : splitPoint t.start t.originalStop f ≤ t.start
      · simp [hdone, hstart] at hcut
      · cases hlast : t.last? with
        | none =>
          obtain ⟨hstop, rfl⟩ : splitPoint t.start t.originalStop f < t.stop ∧
              splitPoint t.start t.originalStop f = cut := by
            simpa [hdone, hstart, hlast, UInt64.not_le] using hcut
          exact ⟨rfl, UInt64.not_le.1 hstart, hstop, by simp⟩
        | some last =>
          obtain ⟨hlt, hstop, rfl⟩ : last < splitPoint t.start t.originalStop f ∧
              splitPoint t.start t.originalStop f < t.stop ∧
              splitPoint t.start t.originalStop f = cut := by
            simpa [hdone, hstart, hlast, UInt64.not_le] using hcut
          exact ⟨rfl, UInt64.not_le.1 hstart, hstop, by simpa using hlt⟩

/-- A report in order is refused if its split point lies at or past the stop offset. -/
theorem tryReturn_in_order (atSplitPoint : Bool) {offset : UInt64} {t : RangeTracker}
    (hfirst : t.last? = none → atSplitPoint = true) (horder : ∀ last ∈ t.last?, last ≤ offset) :
    tryReturn atSplitPoint offset t =
      if atSplitPoint ∧ t.stop ≤ offset then .ok false { t with done := true }
      else .ok true { t with last? := some offset } := by
  cases hlast : t.last? with
  | none =>
    simp only [tryReturn, hlast, hfirst hlast, Runs.get_bind]
    by_cases hstop : t.stop ≤ offset <;> simp [hstop]
  | some last =>
    have hlt : ¬offset < last := UInt64.not_lt.2 (horder last hlast)
    simp only [tryReturn, hlast, Runs.get_bind]
    by_cases hstop : atSplitPoint = true ∧ t.stop ≤ offset <;> simp [hstop, hlt]

/-- A report is a misuse that changes nothing, or it is refused because its split point
lies past the stop offset, or it is granted and is the last record from then on. -/
theorem tryReturn_cases (atSplitPoint : Bool) (offset : UInt64) (t : RangeTracker) :
    (∃ cause, tryReturn atSplitPoint offset t = .error (.misuse cause) t) ∨
      (tryReturn atSplitPoint offset t = .ok false { t with done := true } ∧
        atSplitPoint = true ∧ t.stop ≤ offset) ∨
      (tryReturn atSplitPoint offset t = .ok true { t with last? := some offset } ∧
        (atSplitPoint = true → offset < t.stop) ∧ ∀ last ∈ t.last?, last ≤ offset) := by
  by_cases hfirst : t.last? = none → atSplitPoint = true
  · by_cases horder : ∀ last ∈ t.last?, last ≤ offset
    · have hreport := tryReturn_in_order _ hfirst horder
      by_cases hstop : atSplitPoint = true ∧ t.stop ≤ offset
      · rw [if_pos hstop] at hreport
        exact .inr (.inl ⟨hreport, hstop⟩)
      · rw [if_neg hstop] at hreport
        refine .inr (.inr ⟨hreport, fun hsplit => ?_, horder⟩)
        exact UInt64.not_le.1 fun hle => hstop ⟨hsplit, hle⟩
    · simp only [Classical.not_forall] at horder
      obtain ⟨last, hlast, hlt⟩ := horder
      have hlast : t.last? = some last := hlast
      exact .inl ⟨.recordsOutOfOrder offset last, by simp [tryReturn, hlast, UInt64.not_le.1 hlt]⟩
  · have hlast : t.last? = none ∧ atSplitPoint = false := by simpa using hfirst
    exact .inl ⟨.firstRecordNotSplitPoint offset, by simp [tryReturn, hlast]⟩

/-- All that a call can do: nothing, set the mark, move the last record on, or cut. -/
theorem perform_cases (t : RangeTracker) (c : Call) :
    (t.answer c).residual? = none ∧ (t.perform c).2 = t ∨
      (t.answer c).residual? = none ∧ (t.perform c).2 = { t with done := true } ∨
      (∃ offset, t.perform c = (.reported true, { t with last? := some offset }) ∧
        ∀ last ∈ t.last?, last ≤ offset) ∨
      ∃ cut, t.perform c = (.split (some ⟨cut, t.stop⟩), { t with stop := cut }) ∧
        t.start < cut ∧ cut < t.stop ∧ ∀ last ∈ t.last?, last < cut := by
  cases c with
  | report atSplitPoint offset =>
    rcases tryReturn_cases atSplitPoint offset t with ⟨cause, h⟩ | ⟨h, -, -⟩ | ⟨h, -, horder⟩
    · exact .inl (by simp [answer, Answer.residual?, perform, h])
    · exact .inr (.inl (by simp [answer, Answer.residual?, perform, h]))
    · exact .inr (.inr (.inl ⟨offset, by simp [perform, h], horder⟩))
  | split fraction =>
    rcases trySplit_cases fraction t with h | ⟨cut, h, -, hstart, hstop, horder⟩
    · exact .inl (by simp [answer, Answer.residual?, perform, h])
    · exact .inr (.inr (.inr ⟨cut, by simp [perform, h], hstart, hstop, horder⟩))
  | markDone => exact .inr (.inl ⟨rfl, rfl⟩)

theorem perform_start (t : RangeTracker) (c : Call) : (t.perform c).2.start = t.start := by
  obtain ⟨-, h⟩ | ⟨-, h⟩ | ⟨_, h, -⟩ | ⟨_, h, -⟩ := t.perform_cases c <;> rw [h]

theorem after_start (t : RangeTracker) (calls : List Call) : (t.after calls).start = t.start := by
  induction calls generalizing t with
  | nil => rfl
  | cons c rest ih => exact (ih _).trans (t.perform_start c)

theorem perform_originalStop (t : RangeTracker) (c : Call) :
    (t.perform c).2.originalStop = t.originalStop := by
  obtain ⟨-, h⟩ | ⟨-, h⟩ | ⟨_, h, -⟩ | ⟨_, h, -⟩ := t.perform_cases c <;> rw [h]

theorem after_originalStop (t : RangeTracker) (calls : List Call) :
    (t.after calls).originalStop = t.originalStop := by
  induction calls generalizing t with
  | nil => rfl
  | cons c rest ih => exact (ih _).trans (t.perform_originalStop c)

/-- What one call gives up lies right behind what it leaves. -/
theorem descends_of_perform (t : RangeTracker) (c : Call) :
    OffsetRange.Descends t.stop (t.answer c).residual?.toList (t.perform c).2.stop := by
  rcases t.perform_cases c with ⟨hnone, h⟩ | ⟨hnone, h⟩ | ⟨_, h, -⟩ | ⟨cut, h, -, hstop, -⟩
  · rw [hnone, h]
    exact rfl
  · rw [hnone, h]
    exact rfl
  · rw [answer, h]
    exact rfl
  · rw [answer, h]
    exact ⟨rfl, hstop, rfl⟩

theorem descends_residuals (t : RangeTracker) (calls : List Call) :
    OffsetRange.Descends t.stop (t.residuals calls) (t.after calls).stop := by
  induction calls generalizing t with
  | nil => rfl
  | cons c rest ih => exact (t.descends_of_perform c).append (ih _)

theorem start_le_after {t : RangeTracker} (h : t.start ≤ t.stop) (calls : List Call) :
    t.start ≤ (t.after calls).stop := by
  induction calls generalizing t with
  | nil => exact h
  | cons c rest ih =>
    have hstep : (t.perform c).2.start ≤ (t.perform c).2.stop := by
      obtain ⟨-, hc⟩ | ⟨-, hc⟩ | ⟨_, hc, -⟩ | ⟨_, hc, hstart, -⟩ := t.perform_cases c <;> rw [hc]
      · exact h
      · exact h
      · exact h
      · exact UInt64.le_of_lt hstart
    rw [← t.perform_start c]
    exact ih hstep

/-- The offset of a record that was granted at a split point: no split can reach it. -/
def Holds (t : RangeTracker) (offset : UInt64) : Prop :=
  offset < t.stop ∧ ∃ last ∈ t.last?, offset ≤ last

theorem Holds.perform {t : RangeTracker} {offset : UInt64} (h : t.Holds offset) (c : Call) :
    (t.perform c).2.Holds offset := by
  obtain ⟨hstop, last, hlast, hle⟩ := h
  rcases t.perform_cases c with ⟨-, hc⟩ | ⟨-, hc⟩ | ⟨next, hc, horder⟩ | ⟨cut, hc, -, -, horder⟩
  · rw [hc]
    exact ⟨hstop, last, hlast, hle⟩
  · rw [hc]
    exact ⟨hstop, last, hlast, hle⟩
  · rw [hc]
    exact ⟨hstop, next, rfl, UInt64.le_trans hle (horder last hlast)⟩
  · rw [hc]
    exact ⟨UInt64.lt_of_le_of_lt hle (horder last hlast), last, hlast, hle⟩

theorem Holds.after {t : RangeTracker} {offset : UInt64} (h : t.Holds offset)
    (calls : List Call) : (t.after calls).Holds offset := by
  induction calls generalizing t with
  | nil => exact h
  | cons c rest ih => exact ih (h.perform c)

theorem holds_of_granted {t : RangeTracker} {offset : UInt64}
    (h : t.answer (.report true offset) = .reported true) :
    (t.perform (.report true offset)).2.Holds offset := by
  rcases tryReturn_cases true offset t with ⟨cause, hc⟩ | ⟨hc, -⟩ | ⟨hc, hstop, -⟩
  · simp [answer, RangeTracker.perform, hc] at h
  · simp [answer, RangeTracker.perform, hc] at h
  · simp only [RangeTracker.perform, hc]
    exact ⟨hstop rfl, offset, rfl, UInt64.le_refl _⟩

theorem stop_le_of_refused {t : RangeTracker} {atSplitPoint : Bool} {offset : UInt64}
    (h : t.answer (.report atSplitPoint offset) = .reported false) : t.stop ≤ offset := by
  rcases tryReturn_cases atSplitPoint offset t with ⟨cause, hc⟩ | ⟨-, -, hstop⟩ | ⟨hc, -⟩
  · simp [answer, RangeTracker.perform, hc] at h
  · exact hstop
  · simp [answer, RangeTracker.perform, hc] at h

/-- What a history of calls leaves behind, for a tracker of the bytes from `start` to
`stop`. -/
structure Arbitrated (start stop : UInt64) (t : RangeTracker) (calls : List Call) : Prop where
  bounds : (t.after calls).start = start ∧ (t.after calls).originalStop = stop ∧
    start ≤ (t.after calls).stop ∧ (t.after calls).stop ≤ stop
  stop_decreases : ∀ later, (t.after (calls ++ later)).stop ≤ (t.after calls).stop
  contiguous : OffsetRange.Descends stop (t.residuals calls) (t.after calls).stop
  covered_once : ∀ x, (⟨start, (t.after calls).stop⟩ :: t.residuals calls).countP
    (fun r => r.Contains x) = if start ≤ x ∧ x < stop then 1 else 0
  granted_below : ∀ offset later, (t.after calls).answer (.report true offset) = .reported true →
    offset < (t.after (calls ++ .report true offset :: later)).stop
  refused_above : ∀ atSplitPoint offset later,
    (t.after calls).answer (.report atSplitPoint offset) = .reported false →
    (t.after (calls ++ .report atSplitPoint offset :: later)).stop ≤ offset
  refused_split : ∀ fraction, (t.after calls).answer (.split fraction) = .split none →
    ((t.after calls).perform (.split fraction)).2 = t.after calls
  failed_call : ∀ c cause, (t.after calls).answer c = .failed cause →
    (∃ misuse, cause = .misuse misuse) ∧ ((t.after calls).perform c).2 = t.after calls

theorem eq_of_refused_split {t : RangeTracker} {fraction : UInt64}
    (h : t.answer (.split fraction) = .split none) : (t.perform (.split fraction)).2 = t := by
  rcases trySplit_cases fraction t with hc | ⟨cut, hc, -⟩
  · simp [perform, hc]
  · simp [answer, perform, hc] at h

theorem eq_of_failed {t : RangeTracker} {c : Call} {cause : Error} (h : t.answer c = .failed cause) :
    (∃ misuse, cause = .misuse misuse) ∧ (t.perform c).2 = t := by
  cases c with
  | report atSplitPoint offset =>
    rcases tryReturn_cases atSplitPoint offset t with ⟨misuse, hc⟩ | ⟨hc, -⟩ | ⟨hc, -⟩
    · simp only [answer, perform, hc, Answer.failed.injEq] at h ⊢
      exact ⟨⟨misuse, h.symm⟩, trivial⟩
    · simp [answer, perform, hc] at h
    · simp [answer, perform, hc] at h
  | split fraction => simp [answer, perform] at h
  | markDone => simp [answer, perform] at h

/-- Each call is one step, so a history is any interleaving of the calls of both parties. -/
theorem arbitrated_of_le {start stop : UInt64} (h : start ≤ stop) :
    ∃ t, create start stop = .ok t ∧ ∀ calls, Arbitrated start stop t calls := by
  refine ⟨ofRange start stop, by simp [create, UInt64.not_lt.2 h], fun calls => ?_⟩
  have hdescends : OffsetRange.Descends stop ((ofRange start stop).residuals calls)
      ((ofRange start stop).after calls).stop := (ofRange start stop).descends_residuals calls
  have hstart : start ≤ ((ofRange start stop).after calls).stop :=
    start_le_after (t := ofRange start stop) h calls
  have hstep : ∀ c later, (ofRange start stop).after (calls ++ c :: later) =
      (((ofRange start stop).after calls).perform c).2.after later := fun c later => by
    rw [after_append]
    rfl
  refine
    { bounds := ⟨after_start _ calls, after_originalStop _ calls, hstart, hdescends.le⟩
      stop_decreases := fun later => ?_
      contiguous := hdescends
      covered_once := fun x => ?_
      granted_below := fun offset later hgranted => ?_
      refused_above := fun atSplitPoint offset later hrefused => ?_
      refused_split := fun _ => eq_of_refused_split
      failed_call := fun _ _ => eq_of_failed }
  · rw [after_append]
    exact (descends_residuals _ later).le
  · have hle := hdescends.le
    rw [List.countP_cons, hdescends.countP]
    simp only [OffsetRange.Contains, decide_eq_true_eq, UInt64.lt_iff_toNat_lt,
      UInt64.le_iff_toNat_le] at *
    split <;> split <;> split <;> omega
  · rw [hstep]
    exact ((holds_of_granted hgranted).after later).1
  · rw [hstep]
    have hle := (((ofRange start stop).after calls).descends_residuals
      (.report atSplitPoint offset :: later)).le
    exact UInt64.le_trans hle (stop_le_of_refused hrefused)

/-- The fractions 0.8, 0.5 and 0.6 of a range of a hundred bytes, behind a record: the first
two cuts are made, the third would lie past the stop offset. -/
theorem arbitrated_hundred :
    (100 : UInt64) ≤ 200 ∧
      (ofRange 100 200).residuals [.report true 110, .split 0x3fe999999999999a,
        .split 0x3fe0000000000000, .split 0x3fe3333333333333] = [⟨180, 200⟩, ⟨150, 180⟩] ∧
      ∃ t, create 100 200 = .ok t ∧ Arbitrated 100 200 t [.report true 110,
        .split 0x3fe999999999999a, .split 0x3fe0000000000000, .split 0x3fe3333333333333] := by
  refine ⟨by decide, by decide +kernel, ?_⟩
  have hle : (100 : UInt64) ≤ 200 := by decide
  obtain ⟨t, hcreate, hall⟩ := arbitrated_of_le hle
  exact ⟨t, hcreate, hall _⟩

end RangeTracker
end BlockContainer
