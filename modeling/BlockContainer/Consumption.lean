import BlockContainer.Focus

/-! # What a success uses up

`Consumes left k m` says that a success of `m` leaves the measure `left` of the state at
least `k` below what it was. Loops over input end because their bodies consume.
-/
namespace BlockContainer

variable {ε ε' σ τ α β : Type}

def Consumes (left : σ → Nat) (k : Nat) (m : EStateM ε σ α) : Prop :=
  ∀ ⦃s a s'⦄, m s = .ok a s' → left s' + k ≤ left s

namespace Consumes

variable {left : σ → Nat} {j k : Nat}

theorem of_le {m : EStateM ε σ α} (h : Consumes left k m) (hj : j ≤ k) : Consumes left j m :=
  fun _ _ _ hm => by have := h hm; omega

theorem pure (a : α) : Consumes left 0 (Pure.pure a : EStateM ε σ α) := by
  intro s b s' h
  cases h
  omega

theorem throw (e : ε) : Consumes left k (MonadExcept.throw e : EStateM ε σ α) := by
  intro s b s' h
  cases h

theorem bind {m : EStateM ε σ α} {f : α → EStateM ε σ β} (hm : Consumes left j m)
    (hf : ∀ a, Consumes left k (f a)) : Consumes left (j + k) (m >>= f) := by
  intro s b s' h
  change EStateM.bind m f s = _ at h
  rw [EStateM.bind] at h
  split at h
  · next a s₁ h₁ =>
    have := hm h₁
    have := hf a h
    omega
  · cases h

theorem bindZero {m : EStateM ε σ α} {f : α → EStateM ε σ β} (hm : Consumes left j m)
    (hf : ∀ a, Consumes left k (f a)) : Consumes left 0 (m >>= f) :=
  (bind hm hf).of_le (Nat.zero_le _)

theorem modify {f : σ → σ} (hf : ∀ s, left (f s) ≤ left s) :
    Consumes left 0 (modify f : EStateM ε σ PUnit) := by
  intro s a s' h
  cases h
  exact hf s

theorem mapM {f : α → EStateM ε σ β} (hf : ∀ a, Consumes left 0 (f a)) (l : List α) :
    Consumes left 0 (l.mapM f) := by
  induction l with
  | nil => exact pure []
  | cons a l ih =>
    rw [List.mapM_cons]
    exact bind (hf a) fun _ => bind ih fun _ => pure _

theorem ite {c : Prop} [Decidable c] {m m' : EStateM ε σ α} (h : Consumes left k m)
    (h' : Consumes left k m') : Consumes left k (if c then m else m') := by
  split
  · exact h
  · exact h'

theorem get : Consumes left 0 (get : EStateM ε σ σ) := by
  intro s a s' h
  cases h
  omega

theorem ensure (c : Prop) [Decidable c] (e : ε) :
    Consumes left 0 (ensure c e : EStateM ε σ Unit) :=
  ite (pure ()) (throw e)

theorem check (result : Except ε α) : Consumes left 0 (check result : EStateM ε σ α) := by
  cases result with
  | ok a => exact pure a
  | error e => exact throw e

/-- What is consumed of the part is consumed of the whole. -/
theorem focus {part : σ → τ} {put : σ → τ → σ} {cause : ε → ε'} {leftPart : τ → Nat}
    {m : EStateM ε τ α} (hm : Consumes leftPart k m) (hpart : ∀ s, leftPart (part s) = left s)
    (hput : ∀ s t, left (put s t) = leftPart t) :
    Consumes left k (focus part put cause m) := by
  intro s a s' h
  rw [BlockContainer.focus] at h
  split at h
  · next hm' =>
    have := hm hm'
    cases h
    rw [hput, ← hpart]
    omega
  · cases h

end Consumes
end BlockContainer
