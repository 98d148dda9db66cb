/-! # Computing on a part of a state

`focus` runs a computation on one part of a larger state and puts the part back,
whether the computation succeeds or fails.
-/
namespace BlockContainer

variable {ε ε' σ τ α β : Type}

def focus (part : σ → τ) (put : σ → τ → σ) (cause : ε → ε') (m : EStateM ε τ α) :
    EStateM ε' σ α := fun s =>
  match m (part s) with
  | .ok a t => .ok a (put s t)
  | .error e t => .error (cause e) (put s t)

def ensure (condition : Prop) [Decidable condition] (otherwise : ε) : EStateM ε σ Unit :=
  if condition then pure () else throw otherwise

def check (result : Except ε α) : EStateM ε σ α :=
  match result with
  | .ok a => pure a
  | .error e => throw e

theorem bind_eq_ok_iff {m : EStateM ε σ α} {f : α → EStateM ε σ β} {s s' : σ} {b : β} :
    (m >>= f) s = .ok b s' ↔ ∃ a s₁, m s = .ok a s₁ ∧ f a s₁ = .ok b s' := by
  change EStateM.bind m f s = _ ↔ _
  rw [EStateM.bind]
  constructor
  · intro h
    split at h
    · exact ⟨_, _, ‹_›, h⟩
    · cases h
  · rintro ⟨a, s₁, hm, hf⟩
    rw [hm]
    exact hf

theorem focus_eq_ok_iff {part : σ → τ} {put : σ → τ → σ} {cause : ε → ε'} {m : EStateM ε τ α}
    {s s' : σ} {a : α} :
    focus part put cause m s = .ok a s' ↔ ∃ t, m (part s) = .ok a t ∧ put s t = s' := by
  rw [focus]
  constructor
  · intro h
    split at h
    · cases h
      exact ⟨_, ‹_›, rfl⟩
    · cases h
  · rintro ⟨t, hm, rfl⟩
    rw [hm]

theorem ensure_eq_ok_iff {c : Prop} [Decidable c] {e : ε} {s s' : σ} {u : Unit} :
    ensure c e s = .ok u s' ↔ c ∧ s = s' := by
  rw [ensure]
  split
  · next h =>
    constructor
    · intro hs
      cases hs
      exact ⟨h, rfl⟩
    · rintro ⟨_, rfl⟩
      rfl
  · next h =>
    constructor
    · intro hs
      cases hs
    · rintro ⟨hc, _⟩
      exact absurd hc h

theorem check_eq_ok_iff {result : Except ε α} {s s' : σ} {a : α} :
    check result s = .ok a s' ↔ result = .ok a ∧ s = s' := by
  cases result with
  | ok b =>
    constructor
    · intro h
      cases h
      exact ⟨rfl, rfl⟩
    · rintro ⟨h, rfl⟩
      cases h
      rfl
  | error e =>
    constructor
    · intro h
      cases h
    · rintro ⟨h, _⟩
      cases h

end BlockContainer
