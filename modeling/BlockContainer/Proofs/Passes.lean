import BlockContainer.Proofs.Runs

/-! # Passes through a loop

A loop over input is taken apart into single passes through its body. Whatever numbers the input
holds, and however many passes they ask for, each pass that does not leave the loop uses up some
of the input. So what is left of the input bounds the number of passes.
-/
namespace BlockContainer

variable {τ σ ρ : Type}

/-- What a pass comes to: the loop goes on from a state, or it is left with a result. -/
inductive Pass (σ ρ : Type) where
  | again (s : σ)
  | leave (result : ρ)

def Pass.result (f : σ → ρ) : Pass σ ρ → ρ
  | again s => f s
  | leave result => result

@[simp] theorem Pass.result_again (f : σ → ρ) (s : σ) : (again s).result f = f s := rfl

@[simp] theorem Pass.result_leave (f : σ → ρ) (result : ρ) :
    (leave result : Pass σ ρ).result f = result := rfl

def Pass.Leads (P : σ → Prop) (Q : ρ → Prop) : Pass σ ρ → Prop
  | again s => P s
  | leave result => Q result

/-- A loop and what comes before it, which may be the end of it already. What comes behind the
loop belongs to the pass that leaves it. -/
structure Loop (τ σ ρ : Type) where
  enter : τ → Pass σ ρ
  body : σ → Pass σ ρ

namespace Loop

variable {loop : Loop τ σ ρ} {before : τ → Nat} {left : σ → Nat} {s : σ} {n : Nat} {result : ρ}

/-- From the state on the body is passed through `n` times, and then the loop has been left with
the result. -/
inductive Leaves (loop : Loop τ σ ρ) : σ → Nat → ρ → Prop where
  | last {s : σ} {result : ρ} (pass : loop.body s = .leave result) : loop.Leaves s 1 result
  | more {s s' : σ} {n : Nat} {result : ρ} (pass : loop.body s = .again s')
      (rest : loop.Leaves s' n result) : loop.Leaves s (n + 1) result

/-- What each pass keeps holds for the last one. -/
theorem Leaves.leads {P : σ → Prop} {Q : ρ → Prop} (h : loop.Leaves s n result) (hs : P s)
    (hbody : ∀ s, P s → (loop.body s).Leads P Q) : Q result := by
  induction h with
  | last hpass =>
    have hleads := hbody _ hs
    rwa [hpass] at hleads
  | more hpass _ ih =>
    have hleads := hbody _ hs
    rw [hpass] at hleads
    exact ih hleads

def Consumes (left : σ → Nat) (loop : Loop τ σ ρ) : Prop :=
  ∀ ⦃s s'⦄, loop.body s = .again s' → left s' + 1 ≤ left s

theorem Consumes.leaves (h : loop.Consumes left) {f : σ → ρ}
    (hf : ∀ s, f s = (loop.body s).result f) (s : σ) :
    ∃ n, loop.Leaves s n (f s) ∧ n ≤ left s + 1 := by
  induction hleft : left s using Nat.strongRecOn generalizing s with
  | ind k ih =>
    rw [hf]
    cases hpass : loop.body s with
    | leave result => exact ⟨1, .last hpass, by omega⟩
    | again s' =>
      have hless := h hpass
      obtain ⟨n, hrest, hn⟩ := ih (left s') (by omega) s' rfl
      exact ⟨n + 1, .more hpass hrest, by omega⟩

/-- The function runs the loop, and the loop ends with its input: each pass uses up a byte or
leaves the loop, and there is at most one pass more than there are bytes. -/
structure EndsOnInput (before : τ → Nat) (left : σ → Nat) (loop : Loop τ σ ρ) (run : τ → ρ) :
    Prop where
  consumes : loop.Consumes left
  ends : ∀ t, loop.enter t = .leave (run t) ∨ ∃ s n, loop.enter t = .again s ∧
    left s ≤ before t ∧ loop.Leaves s n (run t) ∧ n ≤ left s + 1

/-- `f` is what comes of the loop from any of its states on. -/
theorem Consumes.endsOnInput (h : loop.Consumes left) {f : σ → ρ} {run : τ → ρ}
    (hf : ∀ s, f s = (loop.body s).result f) (hrun : ∀ t, run t = (loop.enter t).result f)
    (hbefore : ∀ t s, loop.enter t = .again s → left s ≤ before t) :
    loop.EndsOnInput before left run where
  consumes := h
  ends t := by
    rw [hrun]
    cases henter : loop.enter t with
    | leave result => exact .inl rfl
    | again s =>
      obtain ⟨n, hleaves, hn⟩ := h.leaves hf s
      exact .inr ⟨s, n, rfl, hbefore t s henter, hleaves, hn⟩

end Loop
end BlockContainer
