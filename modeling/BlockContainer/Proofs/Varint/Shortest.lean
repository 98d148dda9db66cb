import BlockContainer.Proofs.Varint.Spelling

/-! # The shortest spelling

No spelling of an integer is shorter than its written form. Ten bytes have room for seventy
bits, so a spelling of ten bytes may hold bits that a word does not keep. Of the spellings
that are kept whole the written form is the only shortest one.
-/
namespace BlockContainer.Varint

variable {b leading : Bytes} {last : UInt8} {n : Int64}

theorem spelled_append (b c : Bytes) :
    spelled (b ++ c) = spelled b + 128 ^ b.length * spelled c := by
  induction b with
  | nil => simp
  | cons x rest ih =>
    rw [List.cons_append, spelled_cons, spelled_cons, ih, List.length_cons, Nat.pow_succ,
      Nat.mul_add, Nat.mul_comm (128 ^ rest.length) 128, Nat.mul_assoc, Nat.add_assoc]

theorem spelled_lt (b : Bytes) : spelled b < 128 ^ b.length := by
  induction b with
  | nil => exact Nat.one_pos
  | cons x rest ih =>
    rw [spelled_cons, List.length_cons, Nat.pow_succ]
    omega

theorem Grouped.length_le (h : Grouped b leading last) : b.length ≤ 10 := by
  have hshort : leading.length < 10 := h.short
  rw [h.eq, List.length_append, List.length_singleton]
  omega

/-- A spelling that a word keeps whole spells the word of its integer. -/
theorem toNat_encode_of_spells (h : Spells b n) (hwhole : spelled b < 2 ^ 64) :
    (ZigZag.encode n).toNat = spelled b := by
  obtain ⟨_, _, -, rfl⟩ := spells_iff.1 h
  rw [ZigZag.encode_decode, UInt64.toNat_ofNat', Nat.mod_eq_of_lt hwhole]

/-- No spelling of an integer is shorter than its written form. -/
theorem length_encode_le_of_spells (h : Spells b n) : (encode n).length ≤ b.length := by
  obtain ⟨leading, last, hgrouped, -⟩ := spells_iff.1 h
  have hlength := hgrouped.length_le
  by_cases hten : b.length = 10
  · rw [hten]
    exact length_encode_le n
  · -- Nine groups have sixty-three bits, and all of these are kept.
    obtain ⟨k, hk⟩ : ∃ k, b.length = k + 1 := ⟨b.length - 1, by have := h.length_pos; omega⟩
    have hbelow := spelled_lt b
    have hnine : 128 ^ b.length ≤ 128 ^ 9 := Nat.pow_le_pow_right (by decide) (by omega)
    have hword := toNat_encode_of_spells h (by omega)
    have hshort : k < 10 := by omega
    rw [hk] at hbelow ⊢
    rw [encode, hword]
    exact length_groups_le hshort hbelow

/-- Groups that no shorter sequence replaces are those that are written. -/
theorem Grouped.eq_groups (h : Grouped b leading last)
    (hlength : b.length ≤ (groups (spelled b)).length) : b = groups (spelled b) := by
  obtain ⟨rfl, -, hcontinued, hended⟩ := h
  have hlast : last.toNat < 128 := by
    simpa [continues, UInt8.le_iff_toNat_le] using hended
  induction leading with
  | nil =>
    rw [List.nil_append, spelled_cons, spelled_nil, groups, if_pos (by omega)]
    have hbyte : last.toNat % 128 + 128 * 0 = last.toNat := by omega
    rw [hbyte, UInt8.ofNat_toNat]
  | cons c rest ih =>
    have hc : 128 ≤ c.toNat := by
      simpa [continues, UInt8.le_iff_toNat_le] using hcontinued c List.mem_cons_self
    have hbyte := c.toNat_lt
    rw [List.cons_append, spelled_cons] at hlength ⊢
    rw [groups] at hlength ⊢
    split at hlength
    · rw [List.length_cons, List.length_append] at hlength
      simp only [List.length_singleton] at hlength
      omega
    · next hlarge =>
      have hrest : (c.toNat % 128 + 128 * spelled (rest ++ [last])) / 128 =
          spelled (rest ++ [last]) := by omega
      have hfirst : (c.toNat % 128 + 128 * spelled (rest ++ [last])) % 128 + 128 = c.toNat := by
        omega
      rw [if_neg hlarge, hrest, hfirst, UInt8.ofNat_toNat]
      rw [hrest] at hlength
      exact congrArg _ (ih (fun x hx => hcontinued x (List.mem_cons_of_mem c hx))
        (Nat.le_of_succ_le_succ hlength))

/-- The spelling is kept whole, and none of the same integer is shorter. -/
structure Shortest (b : Bytes) (n : Int64) : Prop where
  spells : Spells b n
  whole : spelled b < 2 ^ 64
  least : ∀ c, Spells c n → b.length ≤ c.length

theorem shortest_iff : Shortest b n ↔ b = encode n := by
  constructor
  · intro h
    obtain ⟨leading, last, hgrouped, -⟩ := spells_iff.1 h.spells
    have hwritten : encode n = groups (spelled b) := by
      rw [encode, toNat_encode_of_spells h.spells h.whole]
    have hlength := h.least _ (spells_encode n)
    rw [hwritten] at hlength ⊢
    exact hgrouped.eq_groups hlength
  · rintro rfl
    refine ⟨spells_encode n, ?_, fun c hc => length_encode_le_of_spells hc⟩
    rw [encode, spelled_groups]
    exact (ZigZag.encode n).toNat_lt

end BlockContainer.Varint
