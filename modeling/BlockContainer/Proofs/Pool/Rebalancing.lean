import BlockContainer.Pool.Control

/-! # What the controller does when it looks

A look of the controller is a run of splits. Each worker is split at most once, in the order of the
workers, and no more sources come into the queue than there are idle workers. So a pool whose
controller looks now and then does what it does on some schedule with the same steps, and what
holds on every schedule holds of it.
-/
namespace BlockContainer.Pool

variable {α : Type}

/-- A split queues a source or none. -/
theorem split_queue_length (i : Nat) (fraction : UInt64) (p : Pool α) :
    (p.split i fraction).queue.length = p.queue.length ∨
      (p.split i fraction).queue.length = p.queue.length + 1 := by
  unfold split
  split
  · next w read hw hread =>
    simp only [put, List.length_append]
    cases (read.reader.trySplit fraction).1 with
    | none => exact .inl rfl
    | some residual => exact .inr rfl
  · exact .inl rfl

/-- A straggler is left alone, or it is split and one idle worker less is left for each source that
is queued. -/
theorem splitStraggler_cases (idle i : Nat) (p : Pool α) :
    splitStraggler idle i p = (idle, p) ∨ ∃ fraction,
      (splitStraggler idle i p).2 = p.split i fraction ∧
      (splitStraggler idle i p).1 + (p.split i fraction).queue.length = idle + p.queue.length := by
  unfold splitStraggler
  split
  · next range read hread =>
    split
    · exact .inl rfl
    · next hcut =>
      refine .inr ⟨stragglerCut range read.reader, rfl, ?_⟩
      have hidle : idle ≠ 0 := fun hnone => hcut (.inl hnone)
      rcases split_queue_length i (stragglerCut range read.reader) p with hsame | hmore
      · simp only [hsame, Nat.lt_irrefl, if_false]
      · simp only [hmore, Nat.lt_succ_self, if_true]
        omega
  · exact .inl rfl

def splitAll (cuts : List (Nat × UInt64)) (p : Pool α) : Pool α :=
  cuts.foldl (fun p cut => p.split cut.1 cut.2) p

theorem splitStragglers_eq (idle : Nat) (workers : List Nat) (p : Pool α) :
    ∃ cuts, (splitStragglers idle workers p).2 = p.splitAll cuts ∧
      (cuts.map Prod.fst).Sublist workers ∧
      (splitStragglers idle workers p).1 + (p.splitAll cuts).queue.length =
        idle + p.queue.length := by
  induction workers generalizing idle p with
  | nil => exact ⟨[], rfl, .slnil, rfl⟩
  | cons i rest ih =>
    obtain ⟨cuts, hcuts, hworkers, hidle⟩ :=
      ih (splitStraggler idle i p).1 (splitStraggler idle i p).2
    rcases splitStraggler_cases idle i p with hsame | ⟨fraction, hsplit, hcount⟩
    · rw [hsame] at hcuts hidle
      simp only [splitStragglers, hsame]
      exact ⟨cuts, hcuts, hworkers.cons i, hidle⟩
    · rw [hsplit] at hcuts hidle
      simp only [splitStragglers, hsplit]
      exact ⟨(i, fraction) :: cuts, hcuts, hworkers.cons_cons i, hidle.trans hcount⟩

/-- A look splits workers under control, each at most once, and queues no more sources than there
are idle workers. A queue that is not empty is left alone. -/
theorem rebalance_eq_splitAll (p : Pool α) : ∃ cuts, p.rebalance = p.splitAll cuts ∧
    (cuts.map Prod.fst).Sublist (List.range p.workers.length) ∧
    (p.queue ≠ [] → cuts = []) ∧
    p.rebalance.queue.length ≤ max p.queue.length (p.workers.length - p.busy) := by
  by_cases hlook : p.busy < p.workers.length ∧ p.queue = []
  · obtain ⟨cuts, hcuts, hworkers, hidle⟩ :=
      splitStragglers_eq (p.workers.length - p.busy) (List.range p.workers.length) p
    rw [rebalance, if_pos hlook, hcuts]
    refine ⟨cuts, rfl, hworkers, fun hqueue => absurd hlook.2 hqueue, ?_⟩
    rw [hlook.2, List.length_nil] at hidle
    omega
  · rw [rebalance, if_neg hlook]
    exact ⟨[], rfl, List.nil_sublist _, fun _ => rfl, Nat.le_max_left _ _⟩

def Event.worker? : Event → Option Nat
  | step worker => some worker
  | split _ _ => none

def Move.worker? : Move → Option Nat
  | step worker => some worker
  | look => none

variable [RecordType α] {a : Assignment} {p p' : Pool α}

theorem follow_append (schedule rest : List Event) :
    p.follow a (schedule ++ rest) = (p.follow a schedule).bind (follow a rest) :=
  List.foldlM_append

/-- Splits are always possible. -/
theorem follow_splits (cuts : List (Nat × UInt64)) (p : Pool α) :
    p.follow a (cuts.map fun cut => .split cut.1 cut.2) = some (p.splitAll cuts) := by
  induction cuts generalizing p with
  | nil => rfl
  | cons cut rest ih => exact ih (p.split cut.1 cut.2)

/-- Each move is a run of events with the same step, if it is one. -/
theorem follow_of_make {move : Move} (h : p.make a move = some p') : ∃ schedule,
    p.follow a schedule = some p' ∧
      schedule.filterMap Event.worker? = [move].filterMap Move.worker? := by
  cases move with
  | step worker =>
    have hstep : perform a p (.step worker) = some p' := h
    refine ⟨[.step worker], ?_, rfl⟩
    rw [follow, List.foldlM_cons, hstep]
    rfl
  | look =>
    obtain ⟨cuts, hcuts, -⟩ := p.rebalance_eq_splitAll
    cases h
    rw [hcuts]
    refine ⟨_, follow_splits cuts p, ?_⟩
    rw [List.filterMap_map]
    exact List.filterMap_eq_nil_iff.2 fun _ _ => rfl

/-- A pool whose controller looks now and then does what it does on some schedule, on which the
workers take the same steps. -/
theorem follow_of_makeAll {moves : List Move} (h : p.makeAll a moves = some p') : ∃ schedule,
    p.follow a schedule = some p' ∧
      schedule.filterMap Event.worker? = moves.filterMap Move.worker? := by
  induction moves generalizing p with
  | nil => exact ⟨[], h, rfl⟩
  | cons move rest ih =>
    simp only [makeAll, List.foldlM_cons] at h
    obtain ⟨p₁, hmove, hrest⟩ := Option.bind_eq_some_iff.1 h
    obtain ⟨first, hfirst, hsteps⟩ := follow_of_make hmove
    obtain ⟨later, hlater, hsteps'⟩ := ih hrest
    refine ⟨first ++ later, ?_, ?_⟩
    · rw [follow_append, hfirst]
      exact hlater
    · rw [List.filterMap_append, hsteps, hsteps', ← List.filterMap_append]
      rfl

end BlockContainer.Pool
