import BlockContainer.Proofs.Container.Basic
import BlockContainer.Proofs.Varint.Spelling

/-! # What a decoding takes

A decoding takes some bytes from the front of what is left, and what it makes of them does
not depend on what follows. So a value that can be decoded from its own bytes is also found
at the front of a longer string, and values that stand one behind the other are decoded one
after another.
-/
namespace BlockContainer

variable {α β : Type}

namespace Decoder

theorem move_zero (d : Decoder) : d.move 0 = d := by
  cases d
  simp [move]

theorem move_move (d : Decoder) (m n : Nat) : (d.move m).move n = d.move (m + n) := by
  simp only [move, List.drop_drop]
  congr 1
  omega

theorem rest_move {d : Decoder} {b t : Bytes} (h : d.rest = b ++ t) :
    (d.move b.length).rest = t := by
  simp [move, h]

/-- The decoding takes just these bytes, whatever follows them. -/
def Takes (m : Decoding α) (b : Bytes) (a : α) : Prop :=
  ∀ d t, d.rest = b ++ t → m d = .ok a (d.move b.length)

namespace Takes

variable {m : Decoding α} {f : α → Decoding β} {b c : Bytes} {a : α} {x : β}

theorem pure (a : α) : Takes (pure a) [] a := by
  intro d t _
  rw [List.length_nil, move_zero]
  rfl

theorem bind (hm : Takes m b a) (hf : Takes (f a) c x) : Takes (m >>= f) (b ++ c) x := by
  intro d t h
  rw [List.append_assoc] at h
  have hrest : (d.move b.length).rest = c ++ t := rest_move h
  rw [Runs.bind_of_ok (hm d _ h), hf _ _ hrest, move_move, List.length_append]

/-- What is computed from the value that was taken takes nothing more. -/
theorem map (hm : Takes m b a) (g : α → β) : Takes (do return g (← m)) b (g a) := by
  have := hm.bind (f := fun a => Pure.pure (g a)) (Takes.pure (g a))
  rwa [List.append_nil] at this

end Takes

/-- What a success takes, it would take whatever followed. -/
def Steady (m : Decoding α) : Prop :=
  ∀ ⦃d a d'⦄, m d = .ok a d' → ∃ b t, d.rest = b ++ t ∧ d' = d.move b.length ∧ Takes m b a

namespace Steady

theorem pure (a : α) : Steady (Pure.pure a : Decoding α) := by
  intro d x d' h
  cases h
  exact ⟨[], d.rest, rfl, (move_zero d).symm, Takes.pure a⟩

theorem throw (e : FormatError) : Steady (throw e : Decoding α) := by
  intro d x d' h
  cases h

theorem bind {m : Decoding α} {f : α → Decoding β} (hm : Steady m) (hf : ∀ a, Steady (f a)) :
    Steady (m >>= f) := by
  intro d x d' h
  obtain ⟨a, d₁, hma, hfa⟩ := bind_eq_ok_iff.1 h
  obtain ⟨b, t, hrest, rfl, htakes⟩ := hm hma
  obtain ⟨c, u, hrest', rfl, htakes'⟩ := hf a hfa
  rw [rest_move hrest] at hrest'
  refine ⟨b ++ c, u, ?_, ?_, htakes.bind htakes'⟩
  · rw [hrest, hrest', List.append_assoc]
  · rw [move_move, List.length_append]

end Steady

/-- Bytes of which something is missing are not taken. -/
theorem Takes.fails_of_short {m : Decoding α} (hm : Steady m) {b : Bytes} {a : α}
    (h : Takes m b a) {d : Decoder} (hrest : d.rest <+: b) (hshort : d.rest.length < b.length) :
    ∃ e d', m d = .error e d' := by
  cases hrun : m d with
  | error e d' => exact ⟨e, d', rfl⟩
  | ok a' d' =>
    obtain ⟨u, hwhole⟩ := hrest
    obtain ⟨c, t, hsplit, -, htakes⟩ := hm hrun
    -- All the bytes begin with those that were taken, so no more than these are taken of them.
    have hall := h (.ofBytes b) [] (List.append_nil _).symm
    have htaken := htakes (.ofBytes b) (t ++ u) (by
      rw [← List.append_assoc, ← hsplit]
      exact hwhole.symm)
    have hsame := congrArg Decoder.rest (EStateM.Result.ok.inj (hall.symm.trans htaken)).2
    have hlength := congrArg List.length hsame
    simp only [move, Decoder.ofBytes, List.length_drop] at hlength
    have hfront := congrArg List.length hsplit
    rw [List.length_append] at hfront
    omega

theorem takes_take (b : Bytes) : Takes (take b.length) b b := by
  intro d t h
  have hfound : d.rest.take b.length = b := by rw [h, List.take_left]
  simp only [take, hfound, if_true]

theorem steady_take (n : Nat) : Steady (take n) := by
  intro d b d' h
  simp only [take] at h
  split at h
  · next hlength =>
    cases h
    refine ⟨d.rest.take n, d.rest.drop n, (List.take_append_drop _ _).symm, by rw [hlength], ?_⟩
    have := takes_take (d.rest.take n)
    rwa [hlength] at this
  · cases h

theorem takes_readLong {b : Bytes} {n : Int64} (h : Varint.Spells b n) : Takes readLong b n := by
  intro d t hrest
  obtain ⟨w, hscan, rfl⟩ := h.scan_append t
  simp only [readLong, hrest, hscan]

theorem steady_readLong : Steady readLong := by
  intro d n d' h
  simp only [readLong] at h
  split at h
  · next w k hscan =>
    cases h
    have hk := (Varint.scan_complete hscan).2
    refine ⟨d.rest.take k, d.rest.drop k, (List.take_append_drop _ _).symm, ?_,
      takes_readLong (Varint.spells_take hscan)⟩
    rw [List.length_take_of_le hk]
  · cases h
  · cases h

theorem takes_readBytes {b text : Bytes} (h : SpellsBytes b text) : Takes readBytes b text := by
  obtain ⟨length, n, hspells, hn, rfl⟩ := h
  apply (takes_readLong hspells).bind
  rw [if_neg (by omega), hn, Int.toNat_natCast]
  exact takes_take text

theorem steady_readInt : Steady readInt := by
  apply steady_readLong.bind
  intro n
  split
  · exact Steady.pure _
  · exact Steady.throw _

theorem steady_readBytes : Steady readBytes := by
  apply steady_readLong.bind
  intro n
  split
  · exact Steady.throw _
  · exact steady_take _

theorem length_lt_of_readBytes {d d' : Decoder} {b : Bytes} (h : readBytes d = .ok b d') :
    b.length < 2 ^ 63 := by
  obtain ⟨n, d₁, -, htake⟩ := bind_eq_ok_iff.1 h
  split at htake
  · cases htake
  · simp only [take] at htake
    split at htake
    · next hlength =>
      have hn := n.toInt_lt
      cases htake
      omega
    · cases htake

end Decoder

def DecodesTo (decoding : Decoding α) : Decoder → List α → Decoder → Prop
  | d, [], d' => d = d'
  | d, record :: records, d' => ∃ d₁, decoding d = .ok record d₁ ∧ DecodesTo decoding d₁ records d'

namespace DecodesTo

variable {decoding : Decoding α} {d d₁ d₂ : Decoder} {records : List α} {record : α}

theorem decodes (h : DecodesTo decoding d records d₁) : Decodes decoding d records := by
  induction records generalizing d with
  | nil => trivial
  | cons record rest ih =>
    obtain ⟨d', hrun, hrest⟩ := h
    exact ⟨d', hrun, ih hrest⟩

theorem snoc (h : DecodesTo decoding d records d₁) (hrun : decoding d₁ = .ok record d₂) :
    DecodesTo decoding d (records ++ [record]) d₂ := by
  induction records generalizing d with
  | nil =>
    obtain rfl : d = d₁ := h
    exact ⟨d₂, hrun, rfl⟩
  | cons first rest ih =>
    obtain ⟨d', hfirst, hrest⟩ := h
    exact ⟨d', hfirst, ih hrest⟩

end DecodesTo

/-- Values whose bytes stand one behind the other are decoded one after another. -/
theorem decodesTo_of_takes {ι : Type} {decoding : Decoding α} {bytes : ι → Bytes} {value : ι → α}
    {items : List ι} (h : ∀ i ∈ items, Decoder.Takes decoding (bytes i) (value i)) {d : Decoder}
    {t : Bytes} (hrest : d.rest = items.flatMap bytes ++ t) :
    ∃ d', DecodesTo decoding d (items.map value) d' ∧ d'.rest = t := by
  induction items generalizing d with
  | nil => exact ⟨d, rfl, hrest⟩
  | cons i rest ih =>
    rw [List.flatMap_cons, List.append_assoc] at hrest
    have hfirst := h i List.mem_cons_self d _ hrest
    obtain ⟨d', hdecodes, hleft⟩ :=
      ih (fun j hj => h j (List.mem_cons_of_mem _ hj)) (Decoder.rest_move hrest)
    exact ⟨d', ⟨_, hfirst, hdecodes⟩, hleft⟩

/-- The decoder delivers these records one after another, and then decoding fails. -/
def DecodesOnly (decoding : Decoding α) : Decoder → List α → Prop
  | d, [] => ∃ e d', decoding d = .error e d'
  | d, record :: records => ∃ d', decoding d = .ok record d' ∧ DecodesOnly decoding d' records

/-- Of values that are cut off, those are decoded that are whole. -/
theorem decodesOnly_of_short {ι : Type} {decoding : Decoding α} (hsteady : Decoder.Steady decoding)
    {bytes : ι → Bytes} {value : ι → α} {items : List ι}
    (h : ∀ i ∈ items, Decoder.Takes decoding (bytes i) (value i)) {d : Decoder}
    (hrest : d.rest <+: items.flatMap bytes)
    (hshort : d.rest.length < (items.flatMap bytes).length) :
    ∃ n < items.length, DecodesOnly decoding d ((items.take n).map value) := by
  induction items generalizing d with
  | nil => cases hshort
  | cons i rest ih =>
    rw [List.flatMap_cons] at hrest hshort
    by_cases hfirst : (bytes i).length ≤ d.rest.length
    · obtain ⟨t, ht⟩ := List.prefix_of_prefix_length_le (List.prefix_append _ _) hrest hfirst
      have hmoved : (d.move (bytes i).length).rest = t := Decoder.rest_move ht.symm
      rw [← ht] at hrest hshort
      rw [List.length_append, List.length_append] at hshort
      obtain ⟨n, hn, honly⟩ := ih (fun j hj => h j (List.mem_cons_of_mem _ hj))
        (hmoved ▸ (List.prefix_append_right_inj _).1 hrest) (by rw [hmoved]; omega)
      exact ⟨n + 1, Nat.succ_lt_succ hn, _, h i List.mem_cons_self d t ht.symm, honly⟩
    · have hcut := List.prefix_of_prefix_length_le hrest (List.prefix_append _ _) (by omega)
      exact ⟨0, Nat.zero_lt_succ _,
        (h i List.mem_cons_self).fails_of_short hsteady hcut (by omega)⟩

end BlockContainer
