import Mathlib.Algebra.Ring.Nat
import BlockContainer.Encoder

/-! # Spellings of integers

A byte string spells an integer when it is one group sequence and nothing else. Reading at
the front of a longer string finds the spelling that stands there, and the written form of
an integer is one of its spellings.
-/
namespace BlockContainer

/-- A length that 63 bits hold keeps its value. -/
theorem toInt_ofInt_length {n : Nat} (h : n < 2 ^ 63) : (Int64.ofInt n).toInt = n :=
  Int64.toInt_ofInt_of_le (by omega) (by omega)

namespace ZigZag

theorem sign_eq (n : Int64) : n >>> 63 = if 0 ≤ n.toInt then 0 else -1 := by
  have hlo := n.le_toInt
  have hhi := n.toInt_lt
  have hshift : (n >>> 63).toInt = n.toInt / 2 ^ 63 := by
    change (n.toBitVec.sshiftRight 63).toInt = _
    rw [BitVec.toInt_sshiftRight, Int.shiftRight_eq_div_pow]
    rfl
  apply Int64.toInt_inj.1
  rw [hshift]
  split
  · rw [Int64.toInt_zero]
    omega
  · have hminus : (-1 : Int64).toInt = -1 := rfl
    omega

theorem toNat_encode (n : Int64) :
    (encode n).toNat = if 0 ≤ n.toInt then 2 * n.toInt.toNat else 2 * (-n.toInt - 1).toNat + 1 := by
  have hlo := n.le_toInt
  have hhi := n.toInt_lt
  have hword : (n.toUInt64.toNat : Int) = if 0 ≤ n.toInt then n.toInt else n.toInt + 2 ^ 64 := by
    have hlt := n.toUInt64.toNat_lt
    rw [← Int64.toInt_toBitVec, BitVec.toInt_eq_toNat_cond, Int64.toNat_toBitVec]
    split <;> split <;> omega
  have hdouble : (n.toUInt64 <<< 1).toNat = 2 * n.toUInt64.toNat % 2 ^ 64 := by
    rw [UInt64.toNat_shiftLeft, Nat.shiftLeft_eq, Nat.mul_comm]
    rfl
  rw [encode, sign_eq]
  by_cases hn : 0 ≤ n.toInt
  · have hzero : (0 : Int64).toUInt64 = 0 := rfl
    rw [if_pos hn] at hword ⊢
    rw [if_pos hn, hzero, UInt64.xor_zero, hdouble]
    omega
  · have hones : (-1 : Int64).toUInt64 = -1 := rfl
    have hsize : UInt64.size = 2 ^ 64 := rfl
    rw [if_neg hn] at hword ⊢
    rw [if_neg hn, hones, UInt64.xor_neg_one, UInt64.toNat_not, hdouble]
    omega

theorem low_eq (w : UInt64) : w &&& 1 = if w.toNat % 2 = 0 then 0 else 1 := by
  have hlow : (w &&& 1).toNat = w.toNat % 2 := (UInt64.toNat_and w 1).trans (Nat.and_one_is_mod _)
  apply UInt64.toNat_inj.1
  rw [hlow]
  split
  · assumption
  · change _ = 1
    omega

theorem half_eq (w : UInt64) : (w >>> 1).toInt64 = Int64.ofInt (w.toNat / 2 : Nat) := by
  have hhalf : w >>> 1 = UInt64.ofNat (w.toNat / 2) := by
    have hlt := w.toNat_lt
    apply UInt64.toNat_inj.1
    rw [UInt64.toNat_shiftRight, UInt64.toNat_ofNat']
    change w.toNat >>> 1 = _
    rw [Nat.shiftRight_eq_div_pow]
    omega
  rw [hhalf, UInt64.toInt64_ofNat', Int64.ofInt_eq_ofNat]

/-- The integer that a number of any size stands for by the zig-zag rule. -/
def integer (n : Nat) : Int := if n % 2 = 0 then (n / 2 : Nat) else -(n / 2 : Nat) - 1

theorem decode_eq (w : UInt64) : decode w = Int64.ofInt (integer w.toNat) := by
  rw [decode, low_eq, half_eq, integer]
  split
  · exact Int64.xor_zero
  · change _ ^^^ (-1) = _
    rw [Int64.xor_neg_one, Int64.not_eq_neg_sub, Int64.ofInt_sub, Int64.ofInt_neg]
    rfl

/-- Decoding words loses nothing. -/
theorem toInt_decode (w : UInt64) : (decode w).toInt = integer w.toNat := by
  have hlt := w.toNat_lt
  rw [decode_eq, Int64.toInt_ofInt_of_le] <;> rw [integer] <;> split <;> omega

@[simp] theorem decode_encode (n : Int64) : decode (encode n) = n := by
  have hlo := n.le_toInt
  have hhi := n.toInt_lt
  apply Int64.toInt_inj.1
  rw [toInt_decode, toNat_encode, integer]
  by_cases hn : 0 ≤ n.toInt
  · rw [if_pos hn]
    omega
  · rw [if_neg hn]
    omega

@[simp] theorem encode_decode (w : UInt64) : encode (decode w) = w := by
  apply UInt64.toNat_inj.1
  rw [toNat_encode, toInt_decode, integer]
  by_cases hw : w.toNat % 2 = 0
  · rw [if_pos hw, if_pos (by omega)]
    omega
  · rw [if_neg hw, if_neg (by omega)]
    omega

end ZigZag

namespace Varint

/-- The integer spelled by a sequence of groups, without any bound. -/
def spelled (groups : Bytes) : Nat := groups.foldr (fun b n => b.toNat % 128 + 128 * n) 0

@[simp] theorem spelled_nil : spelled [] = 0 := rfl

@[simp] theorem spelled_cons (b : UInt8) (rest : Bytes) :
    spelled (b :: rest) = b.toNat % 128 + 128 * spelled rest := rfl

section Places

variable {word shift : UInt64} {i : Nat}

/-- A group lands above what the word holds already. -/
theorem toNat_or_shiftLeft (hword : word.toNat < 2 ^ i) (hshift : shift.toNat = i) (hi : i < 64)
    (b : UInt8) : (word ||| ((b &&& 127).toUInt64 <<< shift)).toNat =
      word.toNat + 2 ^ i * (b.toNat % 128) % 2 ^ 64 := by
  have hgroup : (b &&& 127).toNat = b.toNat % 128 :=
    (UInt8.toNat_and b 127).trans (Nat.and_two_pow_sub_one_eq_mod b.toNat 7)
  have hpower : 2 ^ 64 = 2 ^ i * 2 ^ (64 - i) := by rw [← Nat.pow_add, Nat.add_sub_cancel' (Nat.le_of_lt hi)]
  rw [UInt64.toNat_or, UInt64.toNat_shiftLeft, UInt8.toNat_toUInt64, hgroup, hshift,
    Nat.mod_eq_of_lt hi, Nat.shiftLeft_eq, Nat.mul_comm _ (2 ^ i), hpower, Nat.mul_mod_mul_left,
    Nat.or_comm, ← Nat.two_pow_add_eq_or_of_lt hword, Nat.add_comm]

/-- Ten groups reach to the seventieth bit. Of these the word keeps sixty-four. -/
theorem toNat_place {groups : Bytes} (hword : word.toNat < 2 ^ i) (hshift : shift.toNat = i)
    (hi : i + 7 * groups.length ≤ 70) :
    (place word shift groups).toNat = (word.toNat + 2 ^ i * spelled groups) % 2 ^ 64 := by
  induction groups generalizing word shift i with
  | nil =>
    have hlt := word.toNat_lt
    rw [place, spelled_nil, Nat.mul_zero, Nat.add_zero, Nat.mod_eq_of_lt hlt]
  | cons b rest ih =>
    rw [List.length_cons] at hi
    have hplaced := toNat_or_shiftLeft hword hshift (by omega) b
    have hpower : 2 ^ (i + 7) = 2 ^ i * 128 := Nat.pow_add 2 i 7
    have hbelow : 2 ^ i * (b.toNat % 128) % 2 ^ 64 ≤ 2 ^ i * 127 :=
      Nat.le_trans (Nat.mod_le _ _) (Nat.mul_le_mul_left _ (by omega))
    have hnext : (shift + 7).toNat = i + 7 := by
      rw [UInt64.toNat_add, hshift]
      change (i + 7) % 2 ^ 64 = _
      omega
    rw [place, ih (by omega) hnext (by omega), hplaced, spelled_cons, hpower, Nat.mul_add,
      ← Nat.mul_assoc]
    omega

/-- Of ten groups a word keeps the low 64 bits of what they spell. -/
theorem word_eq {groups : Bytes} (h : groups.length ≤ maxBytes) :
    Varint.word groups = UInt64.ofNat (spelled groups) := by
  have hlength : groups.length ≤ 10 := h
  apply UInt64.toNat_inj.1
  rw [Varint.word, toNat_place (i := 0) (by decide) rfl (by omega), UInt64.toNat_ofNat']
  simp

end Places

/-- Groups that announce another one, and one that does not. -/
structure Grouped (b leading : Bytes) (last : UInt8) : Prop where
  eq : b = leading ++ [last]
  short : leading.length < maxBytes
  continued : ∀ c ∈ leading, continues c = true
  ended : continues last = false

theorem scan_of_grouped {b leading : Bytes} {last : UInt8} (h : Grouped b leading last)
    (t : Bytes) : scan (b ++ t) = .complete (UInt64.ofNat (spelled b)) b.length := by
  obtain ⟨rfl, hshort, hcontinued, hended⟩ := h
  obtain ⟨k, hk⟩ : ∃ k, maxBytes - leading.length = k + 1 :=
    ⟨maxBytes - leading.length - 1, by omega⟩
  have htake : (leading ++ [last] ++ t).take maxBytes = leading ++ last :: t.take k := by
    rw [List.append_assoc, List.take_append, List.take_of_length_le (Nat.le_of_lt hshort), hk]
    rfl
  have hleading : ((leading ++ [last] ++ t).take maxBytes).takeWhile continues = leading := by
    rw [htake, List.takeWhile_append_of_pos hcontinued, List.takeWhile_cons_of_neg (by simp [hended]),
      List.append_nil]
  have hdrop : (leading ++ [last] ++ t).drop leading.length = last :: t := by simp
  have hlength : (leading ++ [last]).length = leading.length + 1 := List.length_append
  simp only [scan, hleading, hdrop]
  rw [if_neg (Nat.ne_of_lt hshort), word_eq (by omega), hlength]

theorem grouped_of_scan {input : Bytes} {w : UInt64} {n : Nat}
    (h : scan input = .complete w n) :
    ∃ leading last, Grouped (input.take n) leading last ∧ n ≤ input.length ∧
      w = UInt64.ofNat (spelled (input.take n)) := by
  simp only [scan] at h
  generalize hleading : (input.take maxBytes).takeWhile continues = leading at h
  have hall : ∀ c ∈ leading, continues c = true := by
    rw [← hleading]
    exact List.all_eq_true.1 List.all_takeWhile
  have hleads : leading <+: input.take maxBytes := hleading ▸ List.takeWhile_prefix _
  have hlength : leading.length ≤ maxBytes := by
    have := hleads.length_le
    rw [List.length_take] at this
    omega
  split at h
  · cases h
  · next hne =>
    split at h
    · cases h
    · next last rest hdrop =>
      cases h
      have hinput : input = leading ++ last :: rest := by
        rw [← hdrop, List.prefix_iff_eq_take.1 (hleads.trans (List.take_prefix _ _)),
          List.length_take_of_le (hleads.trans (List.take_prefix _ _)).length_le,
          List.take_append_drop]
      obtain ⟨k, hk⟩ : ∃ k, maxBytes - leading.length = k + 1 :=
        ⟨maxBytes - leading.length - 1, by omega⟩
      have hended : continues last = false := by
        apply Bool.eq_false_iff.2
        intro hlast
        have htake : input.take maxBytes = leading ++ last :: rest.take k := by
          rw [hinput, List.take_append, List.take_of_length_le hlength, hk]
          rfl
        rw [htake, List.takeWhile_append_of_pos hall,
          List.takeWhile_cons_of_pos hlast] at hleading
        simpa using congrArg List.length hleading
      have htake : input.take (leading.length + 1) = leading ++ [last] := by
        rw [hinput]
        simp [List.take_append, List.take_of_length_le]
      have hshort : (leading ++ [last]).length ≤ maxBytes := by
        rw [List.length_append, List.length_singleton]
        omega
      refine ⟨leading, last, ⟨htake, by omega, hall, hended⟩, ?_, by rw [htake, word_eq hshort]⟩
      rw [hinput]
      simp

/-- The bytes are one group sequence that stands for the integer. -/
def Spells (b : Bytes) (n : Int64) : Prop :=
  ∃ w, scan b = .complete w b.length ∧ ZigZag.decode w = n

/-- The groups decide what is spelled. Of an integer that 64 bits do not hold the low bits stay. -/
theorem spells_iff {b : Bytes} {n : Int64} : Spells b n ↔
    ∃ leading last, Grouped b leading last ∧ ZigZag.decode (UInt64.ofNat (spelled b)) = n := by
  constructor
  · rintro ⟨w, hscan, rfl⟩
    obtain ⟨leading, last, hgrouped, -, rfl⟩ := grouped_of_scan hscan
    rw [List.take_length] at hgrouped ⊢
    exact ⟨leading, last, hgrouped, rfl⟩
  · rintro ⟨leading, last, hgrouped, rfl⟩
    have hscan := scan_of_grouped hgrouped []
    rw [List.append_nil] at hscan
    exact ⟨_, hscan, rfl⟩

namespace Spells

variable {b : Bytes} {n : Int64}

theorem scan_append (h : Spells b n) (t : Bytes) :
    ∃ w, scan (b ++ t) = .complete w b.length ∧ ZigZag.decode w = n := by
  obtain ⟨leading, last, hgrouped, hn⟩ := spells_iff.1 h
  exact ⟨_, scan_of_grouped hgrouped t, hn⟩

theorem length_pos (h : Spells b n) : 0 < b.length := by
  obtain ⟨w, hscan, -⟩ := h
  exact (scan_complete hscan).1

end Spells

theorem spells_take {input : Bytes} {w : UInt64} {n : Nat} (h : scan input = .complete w n) :
    Spells (input.take n) (ZigZag.decode w) := by
  obtain ⟨leading, last, hgrouped, -, rfl⟩ := grouped_of_scan h
  exact spells_iff.2 ⟨leading, last, hgrouped, rfl⟩

/-- An integer that is cut off takes all that there is. -/
theorem length_of_truncated {input : Bytes} {n : Nat} (h : scan input = .truncated n) :
    n = input.length := by
  simp only [scan] at h
  split at h
  · cases h
  · next hleading =>
    split at h
    · next hnone =>
      cases h
      have hle := (List.takeWhile_sublist continues (l := input.take maxBytes)).length_le
      rw [List.length_take] at hle
      have hend := List.drop_eq_nil_iff.1 hnone
      omega
    · cases h

theorem maxBytes_le_of_overlong {input : Bytes} (h : scan input = .overlong) :
    maxBytes ≤ input.length := by
  simp only [scan] at h
  split at h
  · next hleading =>
    rw [← hleading]
    exact Nat.le_trans (List.takeWhile_sublist _).length_le (List.length_take_le' _ _)
  · split at h <;> cases h

/-- Whether an integer is too long shows in the bytes that are looked at. -/
theorem overlong_of_take_eq {input other : Bytes} (h : scan input = .overlong)
    (heq : other.take maxBytes = input.take maxBytes) : scan other = .overlong := by
  simp only [scan] at h ⊢
  rw [heq]
  split at h
  · next hleading => rw [if_pos hleading]
  · split at h <;> cases h

/-- Two spellings at the front of one string are the same. -/
theorem Spells.unique {b c t u : Bytes} {m n : Int64} (hb : Spells b m) (hc : Spells c n)
    (h : b ++ t = c ++ u) : b = c ∧ m = n ∧ t = u := by
  obtain ⟨v, hv, rfl⟩ := hb.scan_append t
  obtain ⟨w, hw, rfl⟩ := hc.scan_append u
  rw [h, hw, Scan.complete.injEq] at hv
  obtain ⟨rfl, hlength⟩ := hv
  obtain ⟨rfl, rfl⟩ := List.append_inj h hlength.symm
  exact ⟨rfl, rfl, rfl⟩

theorem spelled_groups (n : Nat) : spelled (groups n) = n := by
  fun_induction groups n with
  | case1 n h =>
    simp only [spelled, List.foldr_cons, List.foldr_nil, UInt8.toNat_ofNat']
    omega
  | case2 n h ih =>
    simp only [spelled, List.foldr_cons, UInt8.toNat_ofNat'] at ih ⊢
    rw [ih]
    omega

theorem grouped_groups {n k : Nat} (hk : k < maxBytes) (h : n < 128 ^ (k + 1)) :
    ∃ leading last, Grouped (groups n) leading last ∧ leading.length ≤ k := by
  induction k generalizing n with
  | zero =>
    refine ⟨[], UInt8.ofNat n, ⟨?_, by simpa using hk, by simp, ?_⟩, Nat.le_refl _⟩
    · rw [groups, if_pos (by simpa using h)]
      rfl
    · have : UInt8.ofNat n < 128 := by
        rw [UInt8.lt_iff_toNat_lt, UInt8.toNat_ofNat']
        have : (128 : UInt8).toNat = 128 := rfl
        omega
      simpa [continues, UInt8.not_le] using this
  | succ k ih =>
    by_cases hn : n < 128
    · obtain ⟨leading, last, hgrouped, hlength⟩ := ih (n := n) (by omega)
        (Nat.lt_of_lt_of_le hn (by rw [Nat.pow_succ]; exact Nat.le_mul_of_pos_left _ (Nat.pos_of_ne_zero (by simp))))
      exact ⟨leading, last, hgrouped, by omega⟩
    · obtain ⟨leading, last, ⟨heq, hshort, hcontinued, hended⟩, hlength⟩ := ih (n := n / 128) (by omega)
        (Nat.div_lt_of_lt_mul (by rwa [Nat.mul_comm, ← Nat.pow_succ]))
      refine ⟨UInt8.ofNat (n % 128 + 128) :: leading, last, ⟨?_, ?_, ?_, hended⟩, ?_⟩
      · rw [groups, if_neg hn, heq, List.cons_append]
      · simp only [List.length_cons]
        omega
      · intro c hc
        rcases List.mem_cons.1 hc with rfl | hc
        · have : (128 : UInt8) ≤ UInt8.ofNat (n % 128 + 128) := by
            rw [UInt8.le_iff_toNat_le, UInt8.toNat_ofNat']
            have : (128 : UInt8).toNat = 128 := rfl
            omega
          simpa [continues] using this
        · exact hcontinued c hc
      · simp only [List.length_cons]
        omega

theorem length_groups_le {n k : Nat} (hk : k < maxBytes) (h : n < 128 ^ (k + 1)) :
    (groups n).length ≤ k + 1 := by
  obtain ⟨leading, last, hgrouped, hlength⟩ := grouped_groups hk h
  rw [hgrouped.eq, List.length_append]
  exact Nat.succ_le_succ hlength

theorem toNat_encode_lt (n : Int64) : (ZigZag.encode n).toNat < 128 ^ (9 + 1) :=
  Nat.lt_trans (ZigZag.encode n).toNat_lt (by decide)

/-- The written form of an integer spells it. -/
theorem spells_encode (n : Int64) : Spells (encode n) n := by
  obtain ⟨leading, last, hgrouped, -⟩ := grouped_groups (by decide) (toNat_encode_lt n)
  refine spells_iff.2 ⟨leading, last, hgrouped, ?_⟩
  rw [encode, spelled_groups, UInt64.ofNat_toNat, ZigZag.decode_encode]

theorem length_encode_le (n : Int64) : (encode n).length ≤ maxBytes :=
  length_groups_le (by decide) (toNat_encode_lt n)

end Varint

def SpellsBytes (b text : Bytes) : Prop :=
  ∃ length n, Varint.Spells length n ∧ n.toInt = text.length ∧ b = length ++ text

theorem spellsBytes_encode {text : Bytes} (h : text.length < 2 ^ 63) :
    SpellsBytes (Encode.bytes text) text :=
  ⟨_, _, Varint.spells_encode _, toInt_ofInt_length h, rfl⟩

namespace SpellsBytes

variable {b text : Bytes}

theorem length_lt (h : SpellsBytes b text) : text.length < 2 ^ 63 := by
  obtain ⟨_, n, -, hn, -⟩ := h
  have hbound := n.toInt_lt
  omega

end SpellsBytes
end BlockContainer
