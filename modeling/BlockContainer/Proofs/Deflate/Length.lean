import BlockContainer.Deflate.Compress
import BlockContainer.Proofs.Record.RoundTrip

/-! # How long deflated data are

A word of a prefix code has no more than fifteen bits. A block is written in the form that takes
the fewest bytes, so it is hardly longer than with the fixed codes, whatever codes are made for it.
-/
namespace BlockContainer.Deflate

namespace CodeTree

theorem length_words_grow (room depth : Nat) (symbols : List (Nat × Nat)) (word : List Bool) :
    ∀ w ∈ words word (grow room depth symbols).1, w.2.length ≤ word.length + room := by
  induction room generalizing depth symbols word with
  | zero =>
    cases symbols with
    | nil => simp [grow, words]
    | cons first rest =>
      rw [grow]
      split <;> simp [words]
  | succ room ih =>
    cases symbols with
    | nil => simp [grow, words]
    | cons first rest =>
      rw [grow]
      split
      · simp [words]
      · intro w hw
        rcases List.mem_append.1 hw with hw | hw <;>
        · have hbound := ih _ _ _ w hw
          rw [List.length_cons] at hbound
          omega

end CodeTree

namespace PrefixCode

theorem length_words {lengths : List Nat} {c : PrefixCode} (h : ofLengths? lengths = some c) :
    ∀ w ∈ c.words, w.2.length ≤ maxLength := by
  simp only [ofLengths?] at h
  split at h
  · cases h
    intro w hw
    rcases List.mem_append.1 hw with hw | hw <;> exact CodeTree.length_words_grow _ _ _ _ w hw
  · cases h

theorem length_getD_wordTable {c : PrefixCode} {n : Nat} (h : ∀ w ∈ c.words, w.2.length ≤ n)
    (size s : Nat) : ((c.wordTable size).getD s []).length ≤ n := by
  have hfold (words : List (Nat × List Bool)) (hwords : ∀ w ∈ words, w.2.length ≤ n)
      (t : Array (List Bool)) (ht : ∀ s, (t.getD s []).length ≤ n) (s : Nat) :
      ((words.foldl (fun t w => t.setIfInBounds w.1 w.2) t).getD s []).length ≤ n := by
    induction words generalizing t with
    | nil => exact ht s
    | cons w words ih =>
      refine ih (fun w' hw' => hwords w' (List.mem_cons_of_mem _ hw')) _ fun s => ?_
      have hfirst := hwords w List.mem_cons_self
      have hold := ht s
      simp only [Array.getD_eq_getD_getElem?, Array.getElem?_setIfInBounds] at hold ⊢
      split
      · split
        · exact hfirst
        · simp
      · exact hold
  refine hfold c.words h _ (fun s => ?_) s
  rw [Array.getD_eq_getD_getElem?, Array.getElem?_replicate]
  split <;> exact Nat.zero_le _

end PrefixCode

theorem length_numberBits (width n : Nat) : (numberBits width n).length = width := by
  simp [numberBits]

theorem length_byteBits (b : Bytes) : (byteBits b).length = 8 * b.length := by
  induction b with
  | nil => rfl
  | cons x b ih =>
    rw [byteBits, List.flatMap_cons, List.length_append, length_numberBits, List.length_cons]
    rw [byteBits] at ih
    omega

theorem length_tokenBits_nil : (tokenBits .fixed []).length ≤ PrefixCode.maxLength := by
  refine PrefixCode.length_getD_wordTable ?_ _ endOfBlock
  cases hcode : PrefixCode.ofLengths? FixedCode.literalLengths with
  | none => simp [PrefixCode.void, PrefixCode.words, CodeTree.words]
  | some c => exact PrefixCode.length_words hcode

/-- A block is hardly longer than with the fixed codes. -/
theorem length_blockBits_le (offset : Nat) (last : Bool) (data : Bytes) (tokens : List Token) :
    (blockBits offset last data tokens).length ≤ 10 + 8 * bytesFor (tokenBits .fixed tokens) := by
  have hbytes (bits : List Bool) : bits.length ≤ 8 * bytesFor bits := by
    rw [bytesFor]
    omega
  have hfixed := hbytes (tokenBits .fixed tokens)
  have hdeclared := hbytes (declaredBits tokens)
  have hstored : (storedBytes data).length = data.length + 4 := by
    simp only [storedBytes, List.length_append, Bytes.length_ofLittleEndian]
    omega
  simp only [blockBits]
  split
  · simp only [List.cons_append, List.length_cons, List.length_append, length_numberBits,
      List.length_replicate, length_byteBits, hstored]
    omega
  · split
    · simp only [List.cons_append, List.length_cons, List.length_append, length_numberBits]
      omega
    · simp only [List.cons_append, List.length_cons, List.length_append, length_numberBits]
      omega

theorem length_packBits_le (bits : List Bool) : (packBits bits).length ≤ bits.length := by
  fun_induction packBits bits with
  | case1 => exact Nat.le_refl _
  | case2 b bits ih =>
    rw [List.length_cons, List.length_cons]
    rw [List.length_drop] at ih
    omega

theorem tokens_nil (e : Effort) : e.tokens [] = [] := by
  rw [Effort.tokens]
  cases e.manner with
  | greedy chained =>
    simp only
    rw [Search.greedyFrom]
    rfl
  | «lazy» good enough =>
    simp only
    rw [Search.lazyFrom]
    rfl

theorem length_deflate_nil (level : Int) : (deflate level []).length < 2 ^ 8 := by
  have hstored : (stored []).length < 2 ^ 8 := by
    rw [stored]
    decide
  have hsearched (e : Effort) : (searched e []).length < 2 ^ 8 := by
    have hbits : searchedBits e.manner 0 [] (e.tokens []) = blockBits 0 true [] [] := by
      rw [tokens_nil, searchedBits]
      exact if_pos rfl
    have hpacked := length_packBits_le (blockBits 0 true [] [])
    have hblock := length_blockBits_le 0 true [] []
    have hfixed := length_tokenBits_nil
    rw [PrefixCode.maxLength] at hfixed
    rw [bytesFor] at hblock
    rw [searched, hbits]
    omega
  simp only [deflate]
  generalize (if level = -1 then defaultLevel else level) = level
  cases Effort.levels[level.toNat - 1]? with
  | none => exact hstored
  | some e =>
    simp only
    split
    · exact hstored
    · split
      · exact hsearched e
      · exact hstored

end BlockContainer.Deflate
