import BlockContainer.Pool.Basic

/-! # One worker on its own

While nothing is split, every step of a worker leaves the pool with fewer sources in the
queue, or takes the worker on in its phases, or brings its reader nearer to its end. So a
worker left alone comes to where it cannot go on: it has left, or it waits.
-/
namespace BlockContainer

variable {α : Type}

namespace Phase

def rank : Phase α → Nat
  | exited => 0
  | waiting => 1
  | released => 2
  | failed _ _ => 3
  | broken _ _ => 4
  | reading read => if read.last = .finished then 5 else 6
  | started _ => 7
  | claimed _ => 8

def ahead (phase : Phase α) : Nat × Nat × Nat × Nat :=
  match phase.read? with
  | some read =>
    let r := read.reader
    (r.filesAhead, r.bytesLeft, r.recordsLeft, read.last.rank)
  | none => (0, 0, 0, 0)

end Phase

namespace Pool

def phaseOf (i : Nat) (p : Pool α) : Phase α := ((p.workers[i]?).map Worker.phase).getD .exited

/-- What a step of the worker brings down. -/
def before (i : Nat) (p : Pool α) : Nat × Nat × Nat × Nat × Nat × Nat :=
  (p.queue.length, (p.phaseOf i).rank, (p.phaseOf i).ahead)

theorem phaseOf_put {i : Nat} {w w' : Worker α} {p : Pool α} (h : p.workers[i]? = some w) :
    (p.put i w').phaseOf i = w'.phase := by
  have hi := (List.getElem?_eq_some_iff.1 h).1
  simp [phaseOf, put, hi]

abbrev Nearer : Nat × Nat × Nat × Nat × Nat × Nat → Nat × Nat × Nat × Nat × Nat × Nat → Prop :=
  WellFoundedRelation.rel

theorem nearer_of_phase {i : Nat} {w : Worker α} {p p' : Pool α} (hw : p.workers[i]? = some w)
    (hqueue : p'.queue = p.queue) (hrank : (p'.phaseOf i).rank < w.phase.rank) :
    Nearer (p'.before i) (p.before i) := by
  have hphase : p.phaseOf i = w.phase := by simp [phaseOf, hw]
  simp only [Nearer, before, hqueue, hphase]
  exact Prod.Lex.right _ (Prod.Lex.left _ _ hrank)

theorem nearer_of_ahead {i : Nat} {w : Worker α} {p p' : Pool α} (hw : p.workers[i]? = some w)
    (hqueue : p'.queue = p.queue) (hrank : (p'.phaseOf i).rank = w.phase.rank)
    (hahead : WellFoundedRelation.rel (p'.phaseOf i).ahead w.phase.ahead) :
    Nearer (p'.before i) (p.before i) := by
  have hphase : p.phaseOf i = w.phase := by simp [phaseOf, hw]
  simp only [Nearer, before, hqueue, hphase, hrank]
  exact Prod.Lex.right _ (Prod.Lex.right _ hahead)

theorem nearer_of_claim {i : Nat} {w : Worker α} {p p' : Pool α} (hw : p.workers[i]? = some w)
    (hphase : w.phase = .waiting) (h : p.claim i = some p') :
    Nearer (p'.before i) (p.before i) := by
  have hexit : Nearer ((p.put i { phase := .exited }).before i) (p.before i) :=
    nearer_of_phase hw rfl (by rw [phaseOf_put hw, hphase]; simp [Phase.rank])
  rw [claim] at h
  split at h
  · next source queue _ hqueue =>
    cases h
    refine Prod.Lex.left _ _ ?_
    change queue.length < p.queue.length
    simp [hqueue]
  · split at h <;> cases h
    exact hexit
  · cases h
    exact hexit

theorem nearer_of_takeTurn [RecordType α] {a : Assignment} {i : Nat} {w : Worker α}
    {read : ActiveRead α} {p : Pool α} (hw : p.workers[i]? = some w)
    (hphase : w.phase = .reading read)
    (hlast : read.last = .unfinished ∨ read.last = .approached) :
    Nearer ((p.takeTurn a i w read).before i) (p.before i) := by
  have hrank : w.phase.rank = 6 := by
    rcases hlast with h | h <;> simp [hphase, Phase.rank, h]
  rw [takeTurn]
  split
  · next last reader hturn =>
    by_cases hfinished : last = .finished
    · exact nearer_of_phase hw rfl (by rw [phaseOf_put hw, hrank]; simp [Phase.rank, hfinished])
    · refine nearer_of_ahead hw rfl (by rw [phaseOf_put hw, hrank]; simp [Phase.rank, hfinished]) ?_
      rw [phaseOf_put hw, hphase]
      have := Reader.turn_ok hturn hfinished
      change Prod.Lex _ (Prod.Lex _ (Prod.Lex _ _)) (_, _, _, _) (_, _, _, _)
      simp only [Prod.lex_def]
      refine this.imp id (And.imp id (Or.imp id (And.imp id (Or.imp id (And.imp id fun h => ?_)))))
      have hlast : read.last = .unfinished := hlast.resolve_right h.2
      change last.rank < read.last.rank
      rw [hlast]
      exact h.1
  · exact nearer_of_phase hw rfl (by rw [phaseOf_put hw, hrank]; simp [Phase.rank])

theorem nearer_of_count {i : Nat} {w : Worker α} {read : ActiveRead α} {p p' : Pool α}
    (hw : p.workers[i]? = some w) (hphase : w.phase = .reading read) (hlast : read.last = .record)
    (hqueue : p'.queue = p.queue) (hcount : p'.phaseOf i = (p.count i w read).phaseOf i) :
    Nearer (p'.before i) (p.before i) := by
  have hcounted : p'.phaseOf i =
      .reading { read with last := .unfinished, records := read.records + 1 } := by
    rw [hcount, count, phaseOf_put hw]
  refine nearer_of_ahead hw hqueue (by simp [hcounted, hphase, Phase.rank, hlast]) ?_
  rw [hcounted, hphase]
  refine Prod.Lex.right _ (Prod.Lex.right _ (Prod.Lex.right _ ?_))
  change Turn.rank .unfinished < read.last.rank
  rw [hlast]
  decide

theorem nearer_of_goOn [RecordType α] {a : Assignment} {i : Nat} {w : Worker α}
    {read : ActiveRead α} {p : Pool α} (hw : p.workers[i]? = some w)
    (hphase : w.phase = .reading read) :
    Nearer ((p.goOn a i w read).before i) (p.before i) := by
  rw [goOn]
  split
  · next hlast =>
    split
    · rw [countAndDump]
      split
      · exact nearer_of_count hw hphase hlast rfl rfl
      · exact nearer_of_phase hw rfl (by rw [phaseOf_put hw, hphase]; simp [Phase.rank, hlast])
    · exact nearer_of_count hw hphase hlast rfl rfl
  · next hlast =>
    refine nearer_of_phase hw rfl ?_
    change ((p.put i _).phaseOf i).rank < _
    rw [phaseOf_put hw, hphase]
    simp [Phase.rank, hlast]
  · next hlast => exact nearer_of_takeTurn hw hphase (.inl hlast)
  · next hlast => exact nearer_of_takeTurn hw hphase (.inr hlast)

theorem nearer_of_step [RecordType α] {a : Assignment} {i : Nat} {p p' : Pool α}
    (h : p.step a i = some p') : Nearer (p'.before i) (p.before i) := by
  rw [step] at h
  obtain ⟨w, hw, h⟩ := Option.bind_eq_some_iff.1 h
  have hput {w' : Worker α} (hrank : w'.phase.rank < w.phase.rank) :
      ((p.put i w').phaseOf i).rank < w.phase.rank := by rwa [phaseOf_put hw]
  split at h
  · next hphase => exact nearer_of_claim hw hphase h
  · next source hphase =>
    cases h
    rw [start]
    split
    · exact nearer_of_phase hw rfl (hput (by simp [hphase, Phase.rank]))
    · exact nearer_of_phase hw rfl (hput (by simp [hphase, Phase.rank]))
  · next read hphase =>
    cases h
    refine nearer_of_phase hw rfl (hput ?_)
    rw [hphase]
    simp only [Phase.rank]
    split <;> decide
  · next read hphase =>
    cases h
    exact nearer_of_goOn hw hphase
  · next hphase =>
    cases h
    exact nearer_of_phase hw rfl (hput (by simp [hphase, Phase.rank]))
  · next hphase =>
    cases h
    exact nearer_of_phase hw rfl (hput (by simp [hphase, Phase.rank]))
  · next hphase =>
    cases h
    exact nearer_of_phase hw rfl (hput (by simp [hphase, Phase.rank]))
  · cases h

def workAlone [RecordType α] (a : Assignment) (i : Nat) (p : Pool α) : Pool α :=
  match _ : p.step a i with
  | none => p
  | some p' => workAlone a i p'
termination_by p.before i
decreasing_by exact nearer_of_step ‹_›

/-- Lets the workers go on one after another: the first does all, the others leave. -/
def workInTurn [RecordType α] (a : Assignment) (p : Pool α) : Pool α :=
  (List.range p.workers.length).foldl (fun p i => p.workAlone a i) p

end Pool
end BlockContainer
