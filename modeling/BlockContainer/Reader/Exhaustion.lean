import BlockContainer.Block.Contents
import BlockContainer.Reader.Basic

/-! # Reading to the end

Every success of `advance` brings a reader nearer to its end: a pattern reader has fewer
files ahead, or its present reader fewer bytes left, or as many bytes and fewer records of
the present block. So reading to the end comes to an end.
-/
namespace BlockContainer

variable {α : Type}

namespace ContainerReader

def bytesLeft (r : ContainerReader α) : Nat := BlockReader.left r.blocks

theorem refill_true {r r' : ContainerReader α} (h : refill r = .ok true r') :
    (r' = r ∧ r.recordsLeft ≠ 0) ∨ r'.bytesLeft < r.bytesLeft := by
  obtain ⟨_, _, hget, h⟩ := bind_eq_ok_iff.1 h
  cases hget
  split at h
  · cases h
    exact .inl ⟨rfl, ‹_›⟩
  · obtain ⟨found, r₁, hnext, h⟩ := bind_eq_ok_iff.1 h
    obtain ⟨blocks, hread, rfl⟩ := focus_eq_ok_iff.1 hnext
    cases found with
    | false =>
      obtain ⟨_, _, hm, h⟩ := bind_eq_ok_iff.1 h
      cases h
    | true =>
      obtain ⟨_, _, hm, h⟩ := bind_eq_ok_iff.1 h
      cases hm
      cases h
      exact .inr (BlockReader.left_lt_of_readNext hread)

theorem decodeOne_ok {r r' : ContainerReader α} {u : Unit} (h : decodeOne r = .ok u r') :
    r'.bytesLeft = r.bytesLeft ∧ r'.recordsLeft = r.recordsLeft - 1 := by
  obtain ⟨_, _, hget, h⟩ := bind_eq_ok_iff.1 h
  cases hget
  obtain ⟨_, _, hcheck, h⟩ := bind_eq_ok_iff.1 h
  obtain ⟨_, rfl⟩ := check_eq_ok_iff.1 hcheck
  cases hdecoding : r.decoding? with
  | none =>
    simp only [hdecoding] at h
    cases h
  | some decoding =>
    simp only [hdecoding] at h
    obtain ⟨record, r₁, honBlocks, h⟩ := bind_eq_ok_iff.1 h
    obtain ⟨blocks, hdecode, rfl⟩ := focus_eq_ok_iff.1 honBlocks
    obtain ⟨_, _, hget', hdecode⟩ := bind_eq_ok_iff.1 hdecode
    cases hget'
    obtain ⟨_, _, hcheck', hdecode⟩ := bind_eq_ok_iff.1 hdecode
    obtain ⟨_, rfl⟩ := check_eq_ok_iff.1 hcheck'
    obtain ⟨d, _, rfl⟩ := focus_eq_ok_iff.1 hdecode
    cases h
    exact ⟨rfl, rfl⟩

theorem advance_true {r r' : ContainerReader α} (h : advance r = .ok true r') :
    r'.bytesLeft < r.bytesLeft ∨ r'.bytesLeft = r.bytesLeft ∧ r'.recordsLeft < r.recordsLeft := by
  obtain ⟨_, _, hget, h⟩ := bind_eq_ok_iff.1 h
  cases hget
  obtain ⟨_, _, hstarted, h⟩ := bind_eq_ok_iff.1 h
  obtain ⟨_, rfl⟩ := ensure_eq_ok_iff.1 hstarted
  obtain ⟨found, r₁, hrefill, h⟩ := bind_eq_ok_iff.1 h
  cases found with
  | false => cases h
  | true =>
    obtain ⟨_, r₂, hdecode, h⟩ := bind_eq_ok_iff.1 h
    cases h
    have := decodeOne_ok hdecode
    rcases refill_true hrefill with ⟨rfl, hne⟩ | hlt <;> omega

end ContainerReader

namespace PatternReader

theorem openFrom_true [RecordType α] {t : FileTree} {files : List Bytes}
    {r r' : PatternReader α} (hahead : r.ahead = files) (h : openFrom t files r = .ok true r') :
    files ≠ [] ∧ r'.ahead.length ≤ files.length := by
  induction files generalizing r with
  | nil =>
    obtain ⟨_, _, _, h⟩ := bind_eq_ok_iff.1 h
    cases h
  | cons path rest ih =>
    refine ⟨by simp, ?_⟩
    obtain ⟨_, _, hget, h⟩ := bind_eq_ok_iff.1 h
    cases hget
    obtain ⟨started, _, hcheck, h⟩ := bind_eq_ok_iff.1 h
    obtain ⟨_, rfl⟩ := check_eq_ok_iff.1 hcheck
    obtain ⟨reader, found⟩ := started
    obtain ⟨_, _, hmodify, h⟩ := bind_eq_ok_iff.1 h
    cases hmodify
    cases found with
    | true =>
      cases h
      simp [install, hahead]
    | false =>
      have := (ih (by simp [install, hahead]) h).2
      simp only [List.length_cons]
      omega

def bytesLeft (r : PatternReader α) : Nat := (r.reader?.map ContainerReader.bytesLeft).getD 0

def recordsLeft (r : PatternReader α) : Nat := (r.reader?.map ContainerReader.recordsLeft).getD 0

theorem advance_true [RecordType α] {t : FileTree} {r r' : PatternReader α}
    (h : advance t r = .ok true r') :
    r'.ahead.length < r.ahead.length ∨ r'.ahead.length = r.ahead.length ∧
      (r'.bytesLeft < r.bytesLeft ∨
        r'.bytesLeft = r.bytesLeft ∧ r'.recordsLeft < r.recordsLeft) := by
  obtain ⟨_, _, hget, h⟩ := bind_eq_ok_iff.1 h
  cases hget
  obtain ⟨_, _, hstarted, h⟩ := bind_eq_ok_iff.1 h
  obtain ⟨_, rfl⟩ := ensure_eq_ok_iff.1 hstarted
  cases hdone : r.done <;> cases hreader : r.reader? <;> simp only [hdone, hreader] at h
  case false.some reader =>
    obtain ⟨found, r₁, hfile, h⟩ := bind_eq_ok_iff.1 h
    obtain ⟨reader', hadvance, rfl⟩ := focus_eq_ok_iff.1 hfile
    cases found with
    | true =>
      cases h
      refine .inr ⟨rfl, ?_⟩
      have := ContainerReader.advance_true hadvance
      simpa [bytesLeft, recordsLeft, hreader] using this
    | false =>
      obtain ⟨_, _, hpass, h⟩ := bind_eq_ok_iff.1 h
      cases hpass
      obtain ⟨_, _, hget, h⟩ := bind_eq_ok_iff.1 h
      cases hget
      obtain ⟨hne, hle⟩ := openFrom_true rfl h
      have hpos := List.length_pos_iff.2 hne
      simp only [pass, List.length_tail] at hle hpos
      exact .inl (by omega)
  all_goals cases h

end PatternReader

namespace Reader

def filesAhead : Reader α → Nat
  | container _ => 0
  | pattern r => r.ahead.length

def bytesLeft : Reader α → Nat
  | container r => r.bytesLeft
  | pattern r => r.bytesLeft

def recordsLeft : Reader α → Nat
  | container r => r.recordsLeft
  | pattern r => r.recordsLeft

theorem advance_true [RecordType α] {t : FileTree} {r r' : Reader α}
    (h : advance t r = .ok true r') :
    r'.filesAhead < r.filesAhead ∨ r'.filesAhead = r.filesAhead ∧
      (r'.bytesLeft < r.bytesLeft ∨
        r'.bytesLeft = r.bytesLeft ∧ r'.recordsLeft < r.recordsLeft) := by
  simp only [advance, step] at h
  split at h
  · split at h
    · next hadvance =>
      cases h
      exact .inr ⟨rfl, ContainerReader.advance_true hadvance⟩
    · cases h
  · split at h
    · next hadvance =>
      cases h
      exact PatternReader.advance_true hadvance
    · cases h

/-- Goes through the records from the present one on. `visit` is given each of them. -/
def drain [RecordType α] {β : Type} (t : FileTree) (visit : β → α → β) (b : β) (r : Reader α) :
    β × Except Error (Reader α) :=
  match r.current with
  | .error e => (b, .error e)
  | .ok record =>
    match _ : advance t r with
    | .error e _ => (visit b record, .error e)
    | .ok false r => (visit b record, .ok r)
    | .ok true r' => drain t visit (visit b record) r'
termination_by (r.filesAhead, r.bytesLeft, r.recordsLeft)
decreasing_by
  simp only [Prod.lex_def]
  exact advance_true ‹_›

end Reader
end BlockContainer
