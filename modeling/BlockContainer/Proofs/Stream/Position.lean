import BlockContainer.Proofs.Runs
import BlockContainer.Proofs.Varint.Spelling
import BlockContainer.Stream

/-! # Streams at an offset

Where a stream stands in a content that is not rewritten says all that reads depend on. A
read that succeeds takes the bytes that stand there and moves on behind them.
-/
namespace BlockContainer

/-- As much as can be told of so many bytes: a pipe does not know where it stands. -/
def StreamKind.told (kind : StreamKind) (n : Nat) : Nat := if kind = .pipe then 0 else n

theorem StreamKind.told_eq {kind : StreamKind} (h : kind ≠ .pipe) (n : Nat) : kind.told n = n :=
  if_neg h

namespace InputStream

/-- The stream delivers the content from the offset on. -/
structure At (kind : StreamKind) (content : Bytes) (offset : Nat) (s : InputStream) : Prop where
  kind_eq : s.kind = kind
  content_eq : s.content = content
  position_eq : s.position = offset
  rest_eq : s.rest = content.drop offset
  not_failed : s.failed = false

namespace At

variable {kind : StreamKind} {content : Bytes} {offset : Nat} {s : InputStream}

theorem ofBytes (kind : StreamKind) (content : Bytes) :
    At kind content 0 (InputStream.ofBytes kind content) :=
  ⟨rfl, rfl, rfl, rfl, rfl⟩

theorem available (h : At kind content offset s) : s.available = content.drop offset := by
  simp [InputStream.available, h.not_failed, h.rest_eq]

theorem move (h : At kind content offset s) (n : Nat) :
    At kind content (offset + n) (s.move n) where
  kind_eq := h.kind_eq
  content_eq := h.content_eq
  position_eq := by simp [InputStream.move, h.position_eq]
  rest_eq := by simp [InputStream.move, h.rest_eq, List.drop_drop]
  not_failed := h.not_failed

theorem seek (h : At kind content offset s) {target : Nat} (hcan : s.canSeek target = true) :
    At kind content target (s.seek target) := by
  have hseek : s.seek target = { s with
      position := target, rest := s.content.drop target, taken := 0
      taken_le := Nat.zero_le _, rest_drop := rfl } := by
    simp only [InputStream.seek, h.not_failed, hcan, Bool.false_eq_true, if_false, if_true]
  rw [hseek]
  exact ⟨h.kind_eq, h.content_eq, rfl, by rw [h.content_eq], h.not_failed⟩

theorem seek_file (h : At .file content offset s) {n : Nat} (hn : n < 2 ^ 63) :
    At .file content n (s.seek n) :=
  h.seek (by simpa [canSeek, h.kind_eq] using hn)

theorem told (h : At kind content offset s) {n : Nat} {s' : InputStream}
    (h' : At kind content (offset + n) s') :
    s'.tell?.getD 0 - s.tell?.getD 0 = kind.told n := by
  by_cases hkind : kind = .pipe
  · simp [StreamKind.told, InputStream.tell?, h.kind_eq, h'.kind_eq, hkind]
  · simp [StreamKind.told, InputStream.tell?, h.not_failed, h'.not_failed, h.kind_eq, h'.kind_eq,
      h.position_eq, h'.position_eq, hkind]

/-- A stream that stands in a file seeks as one that stands at its start. -/
theorem seek_eq (h : At .file content offset s) {n : Nat} (hn : n < 2 ^ 63) :
    s.seek n = (InputStream.ofBytes .file content).seek n := by
  obtain ⟨kind, content', position, rest, taken, failed, htaken, hrest⟩ := s
  obtain ⟨rfl, rfl, -, -, rfl⟩ := h
  have hcan : n < 9223372036854775808 := hn
  simp [InputStream.seek, InputStream.canSeek, InputStream.ofBytes, hcan]

theorem read (h : At kind content offset s) (n : Nat) :
    (s.read n).1 = (content.drop offset).take n := by
  simp [InputStream.read, h.available]

theorem read_of_le (h : At kind content offset s) {n : Nat} (hn : offset + n ≤ content.length) :
    At kind content (offset + n) (s.read n).2 := by
  have hlength : ((content.drop offset).take n).length = n := by
    rw [List.length_take, List.length_drop]
    omega
  simp only [InputStream.read, h.available, hlength, Nat.lt_irrefl, if_false]
  exact h.move n

end At

/-- The stream stands at the offset, or has failed there for want of more content. -/
structure Near (kind : StreamKind) (content : Bytes) (offset : Nat) (s : InputStream) : Prop where
  at_clear : At kind content offset s.clear
  at_end : s.failed = true → content.length ≤ offset

namespace Near

variable {kind : StreamKind} {content : Bytes} {offset : Nat} {s : InputStream}

theorem of_at (h : At kind content offset s) : Near kind content offset s where
  at_clear := ⟨h.kind_eq, h.content_eq, h.position_eq, h.rest_eq, rfl⟩
  at_end hfailed := by simp [h.not_failed] at hfailed

theorem available (h : Near kind content offset s) : s.available = content.drop offset := by
  cases hfailed : s.failed with
  | false =>
    rw [InputStream.available, hfailed]
    exact h.at_clear.rest_eq
  | true => simp [InputStream.available, hfailed, List.drop_eq_nil_of_le (h.at_end hfailed)]

theorem read (h : Near kind content offset s) (n : Nat) :
    (s.read n).1 = (content.drop offset).take n ∧
      Near kind content (offset + ((content.drop offset).take n).length) (s.read n).2 := by
  have hmove := h.at_clear.move ((content.drop offset).take n).length
  simp only [InputStream.read, h.available]
  refine ⟨trivial, ?_⟩
  split
  · next hshort =>
    rw [List.length_take, List.length_drop] at hshort
    refine ⟨⟨hmove.kind_eq, hmove.content_eq, hmove.position_eq, hmove.rest_eq, rfl⟩, fun _ => ?_⟩
    rw [List.length_take, List.length_drop]
    omega
  · refine ⟨⟨hmove.kind_eq, hmove.content_eq, hmove.position_eq, hmove.rest_eq, rfl⟩, fun hfailed => ?_⟩
    exact Nat.le_trans (h.at_end hfailed) (Nat.le_add_right _ _)

end Near

section Reads

variable {kind : StreamKind} {content : Bytes} {offset : Nat} {s : InputStream}

structure Behind (kind : StreamKind) (content : Bytes) (offset : Nat) (b : Bytes)
    (s : InputStream) : Prop where
  begins : b <+: content.drop offset
  at_end : At kind content (offset + b.length) s

namespace Behind

variable {b c : Bytes} {s' : InputStream}

theorem nil (h : At kind content offset s) : Behind kind content offset [] s :=
  ⟨List.nil_prefix, h⟩

theorem append (h : Behind kind content offset b s)
    (h' : Behind kind content (offset + b.length) c s') :
    Behind kind content offset (b ++ c) s' := by
  obtain ⟨t, ht⟩ := h.begins
  obtain ⟨u, hu⟩ := h'.begins
  refine ⟨⟨u, ?_⟩, ?_⟩
  · rw [← List.drop_drop, ← ht, List.drop_left] at hu
    rw [List.append_assoc, hu, ht]
  · rw [List.length_append, ← Nat.add_assoc]
    exact h'.at_end

end Behind

theorem behind_of_readExactly (h : At kind content offset s) {n : Nat} {otherwise : FormatError}
    {b : Bytes} {s' : InputStream} (hread : readExactly n otherwise s = .ok b s') :
    b.length = n ∧ Behind kind content offset b s' := by
  simp only [readExactly, h.read n] at hread
  split at hread
  · next hlength =>
    cases hread
    refine ⟨hlength, List.take_prefix _ _, ?_⟩
    rw [hlength]
    rw [List.length_take, List.length_drop] at hlength
    by_cases hn : offset + n ≤ content.length
    · exact h.read_of_le hn
    · have hzero : n = 0 := by omega
      subst hzero
      simpa [InputStream.read] using h.move 0
  · cases hread

theorem behind_of_readLong (h : At kind content offset s) {n : Int64} {s' : InputStream}
    (hread : readLong s = .ok n s') :
    ∃ b, Varint.Spells b n ∧ Behind kind content offset b s' := by
  simp only [readLong, h.available] at hread
  split at hread
  · next w k hscan =>
    cases hread
    have hk := (Varint.scan_complete hscan).2
    refine ⟨_, Varint.spells_take hscan, List.take_prefix _ _, ?_⟩
    rw [List.length_take_of_le hk]
    exact h.move k
  · cases hread
  · cases hread

theorem behind_of_readChunks (h : At kind content offset s) {otherwise : FormatError} {n : Nat}
    {b : Bytes} {s' : InputStream} (hread : readChunks otherwise n s = .ok b s') :
    b.length = n ∧ Behind kind content offset b s' := by
  induction n using Nat.strongRecOn generalizing offset s b with
  | ind n ih =>
    have hchunk : 0 < chunkSize := by decide
    rw [readChunks] at hread
    split at hread
    · next hn =>
      cases hread
      exact ⟨hn.symm, .nil h⟩
    · obtain ⟨chunk, s₁, hfirst, hread⟩ := bind_eq_ok_iff.1 hread
      obtain ⟨rest, s₂, hrest, hread⟩ := bind_eq_ok_iff.1 hread
      cases hread
      obtain ⟨hlength, hbehind⟩ := behind_of_readExactly h hfirst
      obtain ⟨hlength', hbehind'⟩ := ih (n - chunkSize) (by omega) hbehind.at_end hrest
      refine ⟨?_, hbehind.append hbehind'⟩
      rw [List.length_append]
      omega

theorem behind_of_readString (h : At kind content offset s) {text : Bytes} {s' : InputStream}
    (hread : readString s = .ok text s') :
    ∃ b, SpellsBytes b text ∧ Behind kind content offset b s' := by
  obtain ⟨n, s₁, hlong, hread⟩ := bind_eq_ok_iff.1 hread
  obtain ⟨b, hspells, hbehind⟩ := behind_of_readLong h hlong
  split at hread
  · cases hread
  · next hn =>
    obtain ⟨hlength, hbehind'⟩ := behind_of_readChunks hbehind.at_end hread
    exact ⟨b ++ text, ⟨b, n, hspells, by omega, rfl⟩, hbehind.append hbehind'⟩

end Reads

theorem drop_behind {content b t : Bytes} {offset : Nat} (h : content.drop offset = b ++ t) :
    content.drop (offset + b.length) = t := by
  rw [← List.drop_drop, h, List.drop_left]

/-- What stands at an offset stands there in a longer content too. -/
theorem drop_of_prefix {content content' b t : Bytes} (h : content <+: content') {offset : Nat}
    (hdrop : content.drop offset = b ++ t) : ∃ t', content'.drop offset = b ++ t' := by
  obtain ⟨u, rfl⟩ := h
  exact ⟨t ++ u.drop (offset - content.length), by rw [List.drop_append, hdrop, List.append_assoc]⟩

section Taking

variable {α β : Type}

/-- The read takes just these bytes, whatever follows them. -/
def Takes (m : Reading α) (b : Bytes) (a : α) : Prop :=
  ∀ ⦃kind content offset s t⦄, At kind content offset s → content.drop offset = b ++ t →
    ∃ s', m s = .ok a s' ∧ At kind content (offset + b.length) s'

namespace Takes

theorem pure (a : α) : Takes (Pure.pure a) [] a := by
  intro kind content offset s t hat _
  exact ⟨s, rfl, hat⟩

theorem bind {m : Reading α} {f : α → Reading β} {b c : Bytes} {a : α} {x : β}
    (hm : Takes m b a) (hf : Takes (f a) c x) : Takes (m >>= f) (b ++ c) x := by
  intro kind content offset s t hat hcontent
  rw [List.append_assoc] at hcontent
  obtain ⟨s₁, hrun₁, hat₁⟩ := hm hat hcontent
  obtain ⟨s₂, hrun₂, hat₂⟩ := hf hat₁ (drop_behind hcontent)
  rw [Nat.add_assoc, ← List.length_append] at hat₂
  exact ⟨s₂, (Runs.bind_of_ok hrun₁).trans hrun₂, hat₂⟩

/-- What is done with the value may take nothing more. -/
theorem last {m : Reading α} {f : α → Reading β} {b : Bytes} {a : α} {x : β}
    (hm : Takes m b a) (hf : Takes (f a) [] x) : Takes (m >>= f) b x := by
  have h := hm.bind hf
  rwa [List.append_nil] at h

end Takes

theorem takes_readLong {b : Bytes} {n : Int64} (h : Varint.Spells b n) : Takes readLong b n := by
  intro kind content offset s t hat hcontent
  obtain ⟨w, hscan, rfl⟩ := h.scan_append t
  refine ⟨s.move b.length, ?_, hat.move _⟩
  simp [readLong, hat.available, hcontent, hscan]

theorem takes_readExactly (b : Bytes) (otherwise : FormatError) :
    Takes (readExactly b.length otherwise) b b := by
  intro kind content offset s t hat hcontent
  have hfound : (content.drop offset).take b.length = b := by rw [hcontent, List.take_left]
  have hrun : readExactly b.length otherwise s = .ok b (s.read b.length).2 := by
    simp [readExactly, hat.read, hfound]
  exact ⟨_, hrun, (behind_of_readExactly hat hrun).2.at_end⟩

/-- A string is the same in chunks as at once, however its length lies to theirs. -/
theorem takes_readChunks (otherwise : FormatError) (b : Bytes) :
    Takes (readChunks otherwise b.length) b b := by
  generalize hn : b.length = n
  induction n using Nat.strongRecOn generalizing b with
  | ind n ih =>
    have hchunk : 0 < chunkSize := by decide
    rw [readChunks]
    split
    · next hzero =>
      obtain rfl := List.eq_nil_of_length_eq_zero (hn.trans hzero)
      exact Takes.pure []
    · have hfirst := takes_readExactly (b.take chunkSize) otherwise
      have hrest := ih (n - chunkSize) (by omega) (b.drop chunkSize) (by rw [List.length_drop, hn])
      rw [List.length_take, hn, Nat.min_comm] at hfirst
      rw [← List.take_append_drop chunkSize b]
      apply hfirst.bind
      apply hrest.last
      exact Takes.pure _

theorem takes_readString {b text : Bytes} (h : SpellsBytes b text) : Takes readString b text := by
  obtain ⟨length, n, hspells, hn, rfl⟩ := h
  apply (takes_readLong hspells).bind
  rw [if_neg (by omega), hn, Int.toNat_natCast]
  exact takes_readChunks _ text

end Taking

end InputStream
end BlockContainer
