import BlockContainer.Proofs.Deflate.Stored

/-! # More input behind a stream

Streams are read in their order, and what follows the last block is not looked at. So more input
behind what there is changes an outcome only if the input was cut off: a success leaves as much
more, and damage that was found stays. A part of a stream that is a whole stream itself is
therefore all of it, and the other parts that something is missing from are cut off.
-/
namespace BlockContainer.Deflate

def BitSource.append (s : BitSource) (t : Bytes) : BitSource := { s with rest := s.rest ++ t }

def Inflation.append (s : Inflation) (t : Bytes) : Inflation :=
  { s with source := s.source.append t }

/-- From this state a success and damage that is found are the same with more input. -/
structure SteadyAt {σ α : Type} (append : σ → Bytes → σ) (m : EStateM Damage σ α) (s : σ) :
    Prop where
  ok : ∀ {s' a}, m s = .ok a s' → ∀ t, m (append s t) = .ok a (append s' t)
  corrupt : ∀ {s'}, m s = .error .corrupt s' → ∀ t, m (append s t) = .error .corrupt (append s' t)

/-- More input changes what `m` comes to only where the input is cut off. -/
def Steady {σ α : Type} (append : σ → Bytes → σ) (m : EStateM Damage σ α) : Prop :=
  ∀ s, SteadyAt append m s

section Rules

variable {σ α β : Type} {append : σ → Bytes → σ} {m : EStateM Damage σ α} {s : σ}

namespace SteadyAt

theorem of_ok {a : α} {s' : σ} (h : m s = .ok a s')
    (happend : ∀ t, m (append s t) = .ok a (append s' t)) : SteadyAt append m s where
  ok hs t := by
    cases h.symm.trans hs
    exact happend t
  corrupt hs := by cases h.symm.trans hs

theorem of_corrupt {s' : σ} (h : m s = .error .corrupt s')
    (happend : ∀ t, m (append s t) = .error .corrupt (append s' t)) : SteadyAt append m s where
  ok hs := by cases h.symm.trans hs
  corrupt hs t := by
    cases h.symm.trans hs
    exact happend t

theorem of_truncated {s' : σ} (h : m s = .error .truncated s') : SteadyAt append m s where
  ok hs := by cases h.symm.trans hs
  corrupt hs := by cases h.symm.trans hs

/-- What goes on in the same way from another state is steady if that is. -/
theorem of_eq {m₁ : EStateM Damage σ α} {s₁ : σ} (hm : SteadyAt append m₁ s₁) (h : m s = m₁ s₁)
    (happend : ∀ t, m (append s t) = m₁ (append s₁ t)) : SteadyAt append m s where
  ok hs t := (happend t).trans (hm.ok (h.symm.trans hs) t)
  corrupt hs t := (happend t).trans (hm.corrupt (h.symm.trans hs) t)

end SteadyAt

namespace Steady

theorem pure (a : α) : Steady append (Pure.pure a : EStateM Damage σ α) := fun _ =>
  .of_ok rfl fun _ => rfl

theorem corrupt : Steady append (throw .corrupt : EStateM Damage σ α) := fun _ =>
  .of_corrupt rfl fun _ => rfl

theorem bind {f : α → EStateM Damage σ β} (hm : Steady append m)
    (hf : ∀ a, Steady append (f a)) : Steady append (m >>= f) := by
  intro s
  cases hs : m s with
  | ok a s₁ =>
    exact (hf a s₁).of_eq (Runs.bind_of_ok hs) fun t => Runs.bind_of_ok ((hm s).ok hs t)
  | error e s₁ =>
    cases e with
    | truncated => exact .of_truncated (Runs.bind_of_error hs)
    | corrupt =>
      exact .of_corrupt (Runs.bind_of_error hs) fun t => Runs.bind_of_error ((hm s).corrupt hs t)

theorem ite {c : Prop} [Decidable c] {m' : EStateM Damage σ α} (h : Steady append m)
    (h' : Steady append m') : Steady append (if c then m else m') := by
  split
  · exact h
  · exact h'

theorem require (c : Prop) [Decidable c] : Steady BitSource.append (require c) :=
  ite (pure ()) corrupt

theorem mapM {f : α → EStateM Damage σ β} (hf : ∀ a, Steady append (f a)) (l : List α) :
    Steady append (l.mapM f) := by
  induction l with
  | nil => exact pure []
  | cons a l ih =>
    rw [List.mapM_cons]
    exact bind (hf a) fun _ => bind ih fun _ => pure _

end Steady

end Rules

theorem steady_bit : Steady BitSource.append bit := by
  rintro ⟨begun, rest⟩
  cases begun with
  | cons b begun => exact .of_ok rfl fun _ => rfl
  | nil =>
    cases rest with
    | nil => exact .of_truncated rfl
    | cons x rest => exact .of_ok rfl fun _ => rfl

theorem steady_number (width : Nat) : Steady BitSource.append (number width) := by
  induction width with
  | zero => exact Steady.pure 0
  | succ width ih => exact Steady.bind steady_bit fun _ => Steady.bind ih fun _ => Steady.pure _

/-- Bytes that are there are the same with more behind them. -/
theorem take_append_of_length_take {n : Nat} {b : Bytes} (h : (b.take n).length = n) (t : Bytes) :
    (b ++ t).take n = b.take n ∧ (b ++ t).drop n = b.drop n ++ t := by
  have hle : n ≤ b.length := by
    rw [List.length_take] at h
    omega
  exact ⟨List.take_append_of_le_length hle, List.drop_append_of_le_length hle⟩

theorem steady_wholeBytes (n : Nat) : Steady BitSource.append (wholeBytes n) := by
  intro s
  by_cases hlength : (s.rest.take n).length = n
  · refine .of_ok (if_pos hlength) fun t => ?_
    obtain ⟨htake, hdrop⟩ := take_append_of_length_take hlength t
    simp only [wholeBytes, BitSource.append, htake, hdrop, hlength, if_true]
  · exact .of_truncated (if_neg hlength)

theorem CodeTree.steady_symbol (c : CodeTree) : Steady BitSource.append c.symbol := by
  induction c with
  | unused => exact Steady.corrupt
  | leaf s => exact Steady.pure s
  | node zero one hzero hone =>
    refine Steady.bind steady_bit fun b => ?_
    cases b
    · exact hzero
    · exact hone

theorem PrefixCode.steady_symbol (c : PrefixCode) : Steady BitSource.append c.symbol := by
  refine Steady.bind steady_bit fun b => ?_
  cases b
  · exact c.zero.steady_symbol
  · exact c.one.steady_symbol

theorem steady_declarationCode (lengths : List Nat) :
    Steady BitSource.append (declarationCode lengths) := by
  unfold declarationCode
  split
  · exact Steady.pure _
  · split
    · exact Steady.corrupt
    · exact Steady.ite (Steady.pure _) Steady.corrupt

theorem steady_tokenCode (lengths : List Nat) : Steady BitSource.append (tokenCode lengths) := by
  unfold tokenCode
  split
  · exact Steady.corrupt
  · exact Steady.ite (Steady.pure _) Steady.corrupt

theorem steady_lengthRun (code : PrefixCode) (previous? : Option Nat) :
    Steady BitSource.append (lengthRun code previous?) := by
  refine Steady.bind code.steady_symbol fun s => ?_
  refine Steady.ite (Steady.pure _) (Steady.ite ?_ (Steady.ite ?_ ?_))
  · refine Steady.bind (steady_number 2) fun _ => ?_
    split
    · exact Steady.corrupt
    · exact Steady.pure _
  · exact Steady.bind (steady_number 3) fun _ => Steady.pure _
  · exact Steady.bind (steady_number 7) fun _ => Steady.pure _

theorem steady_readLengths (code : PrefixCode) (need : Nat) (previous? : Option Nat) :
    Steady BitSource.append (readLengths code need previous?) := by
  fun_induction readLengths code need previous? with
  | case1 => exact Steady.pure _
  | case2 need previous? _ ih =>
    refine Steady.bind (steady_lengthRun code previous?) fun run => ?_
    exact Steady.bind (Steady.require _) fun _ => Steady.bind (ih run.1 run.2) fun _ =>
      Steady.pure _

theorem steady_readCodes : Steady BitSource.append readCodes :=
  Steady.bind (steady_number 5) fun _ =>
    Steady.bind (steady_number 5) fun _ =>
    Steady.bind (steady_number 4) fun _ =>
    Steady.bind (Steady.require _) fun _ =>
    Steady.bind (Steady.mapM steady_number _) fun _ =>
    Steady.bind (steady_declarationCode _) fun code =>
    Steady.bind (steady_readLengths code _ _) fun _ =>
    Steady.bind (Steady.require _) fun _ =>
    Steady.bind (steady_tokenCode _) fun _ =>
    Steady.bind (steady_tokenCode _) fun _ => Steady.pure _

theorem steady_select (range? : Option SymbolRange) : Steady BitSource.append (select range?) := by
  unfold select
  split
  · exact Steady.corrupt
  · exact Steady.bind (steady_number _) fun _ => Steady.pure _

theorem steady_readToken? (codes : BlockCodes) : Steady BitSource.append (readToken? codes) := by
  refine Steady.bind codes.literals.steady_symbol fun s => ?_
  refine Steady.ite (Steady.pure _) (Steady.ite (Steady.pure _) ?_)
  exact Steady.bind (steady_select _) fun _ => Steady.bind codes.distances.steady_symbol fun _ =>
    Steady.bind (steady_select _) fun _ => Steady.pure _

/-- What is read does not depend on what was written. -/
theorem Steady.reading {α : Type} {m : Inflating α} (hm : Steady BitSource.append m) :
    Steady Inflation.append (reading m) := by
  intro s
  cases hrun : m s.source with
  | ok a source =>
    exact .of_ok (Runs.focus_of_ok hrun) fun t => Runs.focus_of_ok ((hm s.source).ok hrun t)
  | error e source =>
    cases e with
    | truncated => exact .of_truncated (Runs.focus_of_error hrun)
    | corrupt =>
      exact .of_corrupt (Runs.focus_of_error hrun) fun t =>
        Runs.focus_of_error ((hm s.source).corrupt hrun t)

/-- Tokens are written to where the block ends or damage shows, which is in what there is. -/
theorem steady_readTokens (codes : BlockCodes) :
    Steady Inflation.append (readTokens codes) := by
  intro s
  -- With more input the measure of the loop is another, so the cases are those of the loop on what
  -- there is, and the run with more input follows them by its equation.
  fun_induction readTokens codes s with
  | case1 s e source htoken =>
    cases e with
    | truncated => exact .of_truncated (by rw [readTokens_eq, htoken])
    | corrupt =>
      refine .of_corrupt (by rw [readTokens_eq, htoken]) fun t => ?_
      rw [readTokens_eq]
      simp only [Inflation.append, (steady_readToken? codes _).corrupt htoken t]
  | case2 s source htoken =>
    refine .of_ok (by rw [readTokens_eq, htoken]) fun t => ?_
    rw [readTokens_eq]
    simp only [Inflation.append, (steady_readToken? codes _).ok htoken t]
  | case3 s token source htoken hreach ih =>
    refine ih.of_eq ?_ fun t => ?_
    · rw [readTokens_eq]
      simp only [htoken, hreach, if_true]
    · rw [readTokens_eq]
      simp only [Inflation.append, (steady_readToken? codes _).ok htoken t, hreach, if_true]
  | case4 s token source htoken hreach =>
    have hrun : readTokens codes s = .error .corrupt { s with source } := by
      rw [readTokens_eq]
      simp only [htoken, hreach, Bool.false_eq_true, if_false]
    refine .of_corrupt hrun fun t => ?_
    rw [readTokens_eq]
    simp only [Inflation.append, (steady_readToken? codes _).ok htoken t, hreach,
      Bool.false_eq_true, if_false]

theorem steady_writeBytes (n : Nat) : Steady Inflation.append (writeBytes n) := by
  intro s
  by_cases hlength : (s.source.rest.take n).length = n
  · refine .of_ok (if_pos hlength) fun t => ?_
    obtain ⟨htake, hdrop⟩ := take_append_of_length_take hlength t
    simp only [writeBytes, Inflation.append, BitSource.append, htake, hdrop, hlength, if_true]
  · exact .of_truncated (if_neg hlength)

theorem steady_readStored : Steady Inflation.append readStored :=
  Steady.bind (steady_wholeBytes 4).reading fun _ =>
    Steady.bind (Steady.require _).reading fun _ => steady_writeBytes _

theorem steady_readContent (kind : Nat) : Steady Inflation.append (readContent kind) :=
  Steady.ite steady_readStored (Steady.ite (steady_readTokens _)
    (Steady.ite (Steady.bind steady_readCodes.reading steady_readTokens) Steady.corrupt))

theorem steady_readBlock : Steady Inflation.append readBlock :=
  Steady.bind steady_bit.reading fun _ => Steady.bind (steady_number 2).reading fun kind =>
    Steady.bind (steady_readContent kind) fun _ => Steady.pure _

/-- Blocks are read up to the last, which is in what there is. -/
theorem steady_readBlocks : Steady Inflation.append readBlocks := by
  intro s
  fun_induction readBlocks s with
  | case1 s e s₁ hblock =>
    cases e with
    | truncated => exact .of_truncated (by rw [readBlocks_eq, hblock])
    | corrupt =>
      refine .of_corrupt (by rw [readBlocks_eq, hblock]) fun t => ?_
      rw [readBlocks_eq, (steady_readBlock s).corrupt hblock t]
  | case2 s s₁ hblock =>
    refine .of_ok (by rw [readBlocks_eq, hblock]) fun t => ?_
    rw [readBlocks_eq, (steady_readBlock s).ok hblock t]
  | case3 s s₁ hblock ih =>
    refine ih.of_eq (by rw [readBlocks_eq, hblock]) fun t => ?_
    rw [readBlocks_eq, (steady_readBlock s).ok hblock t]

/-- Data that were found stay the same with more input. -/
theorem inflate_append_of_ok {s data : Bytes} (h : inflate s = .ok data) (t : Bytes) :
    inflate (s ++ t) = .ok data := by
  rw [inflate] at h
  cases hrun : readBlocks (.ofBytes s) with
  | ok u final =>
    rw [hrun] at h
    cases h
    have hmore : readBlocks (.ofBytes (s ++ t)) = .ok u (final.append t) :=
      (steady_readBlocks _).ok hrun t
    rw [inflate, hmore]
    rfl
  | error e final =>
    rw [hrun] at h
    cases h

/-- Damage that was found stays found with more input. -/
theorem inflate_append_of_corrupt {s : Bytes} (h : inflate s = .error .corrupt) (t : Bytes) :
    inflate (s ++ t) = .error .corrupt := by
  rw [inflate] at h
  cases hrun : readBlocks (.ofBytes s) with
  | ok u final =>
    rw [hrun] at h
    cases h
  | error e final =>
    rw [hrun] at h
    cases h
    have hmore : readBlocks (.ofBytes (s ++ t)) = .error .corrupt (final.append t) :=
      (steady_readBlocks _).corrupt hrun t
    rw [inflate, hmore]

/-- A stream that something is missing from is cut off. Were it a stream of some data already, the
whole stream would not end where it does. -/
theorem inflate_of_missing {s t data : Bytes} (h : isStreamOf data (s ++ t) = true)
    (ht : t ≠ []) : inflate s = .error .truncated := by
  obtain ⟨final, hwhole, hrest, -⟩ := readBlocks_of_isStreamOf h
  rw [inflate]
  cases hrun : readBlocks (.ofBytes s) with
  | ok u cut =>
    have hmore : readBlocks (.ofBytes (s ++ t)) = .ok u (cut.append t) :=
      (steady_readBlocks _).ok hrun t
    cases hwhole.symm.trans hmore
    exact absurd (List.append_eq_nil_iff.1 hrest).2 ht
  | error e cut =>
    cases e with
    | truncated => rfl
    | corrupt =>
      have hmore : readBlocks (.ofBytes (s ++ t)) = .error .corrupt (cut.append t) :=
        (steady_readBlocks _).corrupt hrun t
      cases hwhole.symm.trans hmore

end BlockContainer.Deflate
