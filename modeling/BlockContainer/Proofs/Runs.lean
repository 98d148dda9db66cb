import BlockContainer.Focus

/-! # Running a computation from a state

Rules that take a run apart from its first step on. With them a run is carried out by
rewriting, and the bodies of the computations need not be unfolded further.
-/
namespace BlockContainer.Runs

variable {ε ε' σ τ α β : Type}

@[simp] theorem pure_apply (a : α) (s : σ) : (pure a : EStateM ε σ α) s = .ok a s := rfl

@[simp] theorem throw_apply (e : ε) (s : σ) : (throw e : EStateM ε σ α) s = .error e s := rfl

@[simp] theorem get_bind (f : σ → EStateM ε σ α) (s : σ) : (get >>= f) s = f s s := rfl

@[simp] theorem set_bind (t : σ) (f : PUnit → EStateM ε σ α) (s : σ) :
    (set t >>= f) s = f ⟨⟩ t := rfl

@[simp] theorem modify_bind (g : σ → σ) (f : PUnit → EStateM ε σ α) (s : σ) :
    (modify g >>= f) s = f ⟨⟩ (g s) := rfl

@[simp] theorem modify_apply (g : σ → σ) (s : σ) :
    (modify g : EStateM ε σ PUnit) s = .ok ⟨⟩ (g s) := rfl

@[simp] theorem throw_bind (e : ε) (f : α → EStateM ε σ β) (s : σ) :
    (throw e >>= f) s = .error e s := rfl

theorem bind_of_ok {m : EStateM ε σ α} {f : α → EStateM ε σ β} {a : α} {s s' : σ}
    (h : m s = .ok a s') : (m >>= f) s = f a s' := by
  change EStateM.bind m f s = _
  rw [EStateM.bind, h]

theorem bind_of_error {m : EStateM ε σ α} {f : α → EStateM ε σ β} {e : ε} {s s' : σ}
    (h : m s = .error e s') : (m >>= f) s = .error e s' := by
  change EStateM.bind m f s = _
  rw [EStateM.bind, h]

theorem ensure_bind {c : Prop} [Decidable c] (h : c) (e : ε) (f : Unit → EStateM ε σ α) (s : σ) :
    (ensure c e >>= f) s = f () s := by
  rw [ensure, if_pos h]
  rfl

theorem check_bind {result : Except ε α} {a : α} (h : result = .ok a) (f : α → EStateM ε σ β)
    (s : σ) : (check result >>= f) s = f a s := by
  rw [h]
  rfl

theorem focus_of_ok {part : σ → τ} {put : σ → τ → σ} {cause : ε → ε'} {m : EStateM ε τ α} {a : α}
    {s : σ} {t : τ} (h : m (part s) = .ok a t) : focus part put cause m s = .ok a (put s t) := by
  rw [focus, h]

theorem focus_of_error {part : σ → τ} {put : σ → τ → σ} {cause : ε → ε'} {m : EStateM ε τ α}
    {e : ε} {s : σ} {t : τ} (h : m (part s) = .error e t) :
    focus part put cause m s = .error (cause e) (put s t) := by
  rw [focus, h]

/-- What succeeds for each element of a list succeeds for the list. -/
theorem mapM_of_ok {f : α → Except ε β} {g : α → β} {l : List α} (h : ∀ a ∈ l, f a = .ok (g a)) :
    l.mapM f = .ok (l.map g) := by
  induction l with
  | nil => rfl
  | cons a rest ih =>
    obtain ⟨ha, hrest⟩ := List.forall_mem_cons.1 h
    rw [List.mapM_cons, ha, ih hrest]
    rfl

/-- What a computation leaves behind, whether it succeeds or fails. -/
def after (m : EStateM ε σ α) (s : σ) : σ :=
  match m s with
  | .ok _ s => s
  | .error _ s => s

theorem after_of_ok {m : EStateM ε σ α} {s s' : σ} {a : α} (h : m s = .ok a s') :
    after m s = s' := by
  rw [after, h]

theorem after_of_error {m : EStateM ε σ α} {s s' : σ} {e : ε} (h : m s = .error e s') :
    after m s = s' := by
  rw [after, h]

theorem map_eq_ok_iff {f : α → β} {m : EStateM ε σ α} {s s' : σ} {b : β} :
    (f <$> m) s = .ok b s' ↔ ∃ a, m s = .ok a s' ∧ f a = b := by
  change EStateM.map f m s = _ ↔ _
  unfold EStateM.map
  cases m s with
  | ok a s₁ =>
    simp only [EStateM.Result.ok.injEq]
    exact ⟨fun ⟨hf, hs⟩ => ⟨a, ⟨rfl, hs⟩, hf⟩, fun ⟨_, ⟨ha, hs⟩, hf⟩ => ⟨ha ▸ hf, hs⟩⟩
  | error e s₁ => simp

theorem map_of_ok (f : α → β) {m : EStateM ε σ α} {s s' : σ} {a : α} (h : m s = .ok a s') :
    (f <$> m) s = .ok (f a) s' :=
  map_eq_ok_iff.2 ⟨a, h, rfl⟩

theorem map_of_error (f : α → β) {m : EStateM ε σ α} {s s' : σ} {e : ε} (h : m s = .error e s') :
    (f <$> m) s = .error e s' := by
  change EStateM.map f m s = _
  unfold EStateM.map
  rw [h]

theorem after_bind_of_ok {m : EStateM ε σ α} {f : α → EStateM ε σ β} {a : α} {s s' : σ}
    (h : m s = .ok a s') : after (m >>= f) s = after (f a) s' := by
  rw [after, bind_of_ok h, after]

@[simp] theorem after_map (f : α → β) (m : EStateM ε σ α) (s : σ) :
    after (f <$> m) s = after m s := by
  change after (EStateM.map f m) s = _
  unfold after EStateM.map
  cases m s <;> rfl

theorem after_focus {part : σ → τ} {put : σ → τ → σ} {cause : ε → ε'} {m : EStateM ε τ α}
    {s : σ} : after (focus part put cause m) s = put s (after m (part s)) := by
  unfold after focus
  cases m (part s) <;> rfl

def value? (m : EStateM ε σ α) (s : σ) : Option α :=
  match m s with
  | .ok a _ => some a
  | .error _ _ => none

theorem eq_ok_iff {m : EStateM ε σ α} {s : σ} {a : α} :
    m s = .ok a (after m s) ↔ value? m s = some a := by
  unfold value? after
  cases m s <;> simp

theorem value?_of_ok {m : EStateM ε σ α} {s s' : σ} {a : α} (h : m s = .ok a s') :
    value? m s = some a := by
  rw [value?, h]

def error? (m : EStateM ε σ α) (s : σ) : Option ε :=
  match m s with
  | .ok _ _ => none
  | .error e _ => some e

theorem eq_error_iff {m : EStateM ε σ α} {s : σ} {e : ε} :
    m s = .error e (after m s) ↔ error? m s = some e := by
  unfold error? after
  cases m s <;> simp

/-- The computation keeps the property of the state, whether it succeeds or fails. -/
def Keeps (P : σ → Prop) (m : EStateM ε σ α) : Prop := ∀ ⦃s⦄, P s → P (after m s)

namespace Keeps

variable {P : σ → Prop}

theorem pure (a : α) : Keeps P (pure a : EStateM ε σ α) := fun _ hs => hs

theorem throw (e : ε) : Keeps P (throw e : EStateM ε σ α) := fun _ hs => hs

theorem bind {m : EStateM ε σ α} {f : α → EStateM ε σ β} (hm : Keeps P m)
    (hf : ∀ a, Keeps P (f a)) : Keeps P (m >>= f) := by
  intro s hs
  have hleft := hm hs
  cases hrun : m s with
  | ok a s' =>
    rw [after_of_ok hrun] at hleft
    rw [after, bind_of_ok hrun]
    exact hf a hleft
  | error e s' =>
    rw [after_of_error hrun] at hleft
    rw [after, bind_of_error hrun]
    exact hleft

theorem get {f : σ → EStateM ε σ α} (hf : ∀ s, P s → P (after (f s) s)) :
    Keeps P (get >>= f) := fun s hs => hf s hs

theorem modify {g : σ → σ} (hg : ∀ s, P s → P (g s)) :
    Keeps P (modify g : EStateM ε σ PUnit) := fun s hs => hg s hs

theorem ensure (c : Prop) [Decidable c] (e : ε) : Keeps P (ensure c e : EStateM ε σ Unit) := by
  rw [BlockContainer.ensure]
  split
  · exact Keeps.pure _
  · exact Keeps.throw _

theorem check (result : Except ε α) : Keeps P (check result : EStateM ε σ α) := by
  cases result with
  | ok a => exact Keeps.pure a
  | error e => exact Keeps.throw e

theorem focus {part : σ → τ} {put : σ → τ → σ} {cause : ε → ε'} {m : EStateM ε τ α}
    {Q : τ → Prop} (hm : Keeps Q m) (hpart : ∀ s, P s → Q (part s))
    (hput : ∀ s t, P s → Q t → P (put s t)) : Keeps P (focus part put cause m) := by
  intro s hs
  have hleft := hm (hpart s hs)
  cases hrun : m (part s) with
  | ok a t =>
    rw [after_of_ok hrun] at hleft
    rw [after_of_ok (focus_of_ok hrun)]
    exact hput s t hs hleft
  | error e t =>
    rw [after_of_error hrun] at hleft
    rw [after_of_error (focus_of_error hrun)]
    exact hput s t hs hleft

theorem of_ok {m : EStateM ε σ α} (h : Keeps P m) {s s' : σ} {a : α} (hs : P s)
    (hrun : m s = .ok a s') : P s' :=
  after_of_ok hrun ▸ h hs

theorem of_error {m : EStateM ε σ α} (h : Keeps P m) {s s' : σ} {e : ε} (hs : P s)
    (hrun : m s = .error e s') : P s' :=
  after_of_error hrun ▸ h hs

end Keeps

def FailsWith (kind : ε → Prop) (m : EStateM ε σ α) (s : σ) : Prop :=
  ∀ ⦃e s'⦄, m s = .error e s' → kind e

section FailsWith

variable {kind : ε → Prop} {s : σ}

theorem failsWith_of_ok {m : EStateM ε σ α} {a : α} {s' : σ} (h : m s = .ok a s') :
    FailsWith kind m s := by
  intro e s'' herror
  cases h.symm.trans herror

theorem FailsWith.imp {kind' : ε → Prop} {m : EStateM ε σ α} (h : FailsWith kind m s)
    (himp : ∀ e, kind e → kind' e) : FailsWith kind' m s :=
  fun e _ herror => himp e (h herror)

theorem FailsWith.bind {m : EStateM ε σ α} {f : α → EStateM ε σ β} (hm : FailsWith kind m s)
    (hf : ∀ a s', m s = .ok a s' → FailsWith kind (f a) s') : FailsWith kind (m >>= f) s := by
  intro e s' herror
  cases hrun : m s with
  | ok a s₁ =>
    rw [bind_of_ok hrun] at herror
    exact hf a s₁ hrun herror
  | error e' s₁ =>
    rw [bind_of_error hrun] at herror
    cases herror
    exact hm hrun

@[simp] theorem failsWith_map_iff {f : α → β} {m : EStateM ε σ α} :
    FailsWith kind (f <$> m) s ↔ FailsWith kind m s := by
  change (∀ ⦃e s'⦄, EStateM.map f m s = .error e s' → kind e) ↔ _
  unfold FailsWith EStateM.map
  cases m s <;> simp

theorem failsWith_ensure {c : Prop} [Decidable c] {e : ε} (h : kind e) :
    FailsWith kind (ensure c e : EStateM ε σ Unit) s := by
  rw [ensure]
  split
  · exact failsWith_of_ok rfl
  · intro e' s' herror
    cases herror
    exact h

theorem failsWith_check {result : Except ε' α} {cause : ε' → ε} (h : ∀ e, kind (cause e)) :
    FailsWith kind (check (result.mapError cause) : EStateM ε σ α) s := by
  intro e s' herror
  cases result with
  | ok a => cases herror
  | error e' =>
    cases herror
    exact h e'

theorem FailsWith.focus {kind' : ε' → Prop} {part : σ → τ} {put : σ → τ → σ} {cause : ε' → ε}
    {m : EStateM ε' τ α} (hm : FailsWith kind' m (part s)) (h : ∀ e, kind' e → kind (cause e)) :
    FailsWith kind (focus part put cause m) s := by
  intro e s' herror
  cases hrun : m (part s) with
  | ok a t => cases (focus_of_ok hrun).symm.trans herror
  | error e' t =>
    cases (focus_of_error hrun).symm.trans herror
    exact h e' (hm hrun)

theorem failsWith_focus {part : σ → τ} {put : σ → τ → σ} {cause : ε' → ε} {m : EStateM ε' τ α}
    (h : ∀ e, kind (cause e)) : FailsWith kind (focus part put cause m) s := by
  have hm : FailsWith (fun _ => True) m (part s) := fun _ _ _ => trivial
  exact hm.focus fun e _ => h e

end FailsWith

/-- What a run comes to: a failure of the kind, or a result and a state with the property. -/
def Ends (kind : ε → Prop) (Q : α → σ → Prop) : EStateM.Result ε σ α → Prop
  | .ok a s => Q a s
  | .error e _ => kind e

namespace Ends

variable {kind : ε → Prop} {Q : α → σ → Prop} {s : σ}

theorem of_ok {result : EStateM.Result ε σ α} {a : α} (h : result = .ok a s) (hq : Q a s) :
    Ends kind Q result := by
  rw [h]
  exact hq

theorem of_error {result : EStateM.Result ε σ α} {e : ε} (h : result = .error e s)
    (he : kind e) : Ends kind Q result := by
  rw [h]
  exact he

theorem fails {m : EStateM ε σ α} (h : Ends kind Q (m s)) : FailsWith kind m s := by
  intro e s' herror
  rw [herror] at h
  exact h

theorem leads {result : EStateM.Result ε σ α} {a : α} (h : Ends kind Q result)
    (hok : result = .ok a s) : Q a s := by
  rw [hok] at h
  exact h

theorem bind {m : EStateM ε σ α} {f : α → EStateM ε σ β} {Q' : β → σ → Prop}
    (hm : Ends kind Q (m s)) (hf : ∀ a s', Q a s' → Ends kind Q' (f a s')) :
    Ends kind Q' ((m >>= f) s) := by
  cases hrun : m s with
  | ok a s' =>
    rw [bind_of_ok hrun]
    exact hf a s' (hm.leads hrun)
  | error e s' => exact .of_error (bind_of_error hrun) (hm.fails hrun)

end Ends

/-- What a run comes to: it may have failed, for a reason of the kind, and the state has the
property either way. -/
def EndsIn (kind : ε → Prop) (P : σ → Prop) : EStateM.Result ε σ α → Prop
  | .ok _ s => P s
  | .error e s => kind e ∧ P s

namespace EndsIn

variable {kind : ε → Prop} {P : σ → Prop} {m : EStateM ε σ α} {s : σ}

theorem after (h : EndsIn kind P (m s)) : P (after m s) := by
  unfold Runs.after
  cases hrun : m s with
  | ok a s' =>
    rw [hrun] at h
    exact h
  | error e s' =>
    rw [hrun] at h
    exact h.2

theorem fails (h : EndsIn kind P (m s)) : FailsWith kind m s := by
  intro e s' herror
  rw [herror] at h
  exact h.1

end EndsIn
end BlockContainer.Runs
