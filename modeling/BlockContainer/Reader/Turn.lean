import BlockContainer.Reader.Exhaustion

/-! # Turns of a reader

A controller may split a reader at any moment. To see all that can come of it, reading is
done in turns, each of which asks the tracker at most once: to decode a record, to ask
for the next block, or to read the block that was granted. `advance` is the same turns
without a break. A reader of a pattern cannot be split, so there a turn is the whole of
`advance`.
-/
namespace BlockContainer

variable {α : Type}

inductive Turn where
  | finished
  | approached
  | unfinished
  | record
deriving DecidableEq, Repr

namespace Turn

def ofFound (found : Bool) : Turn := if found then record else finished

/-- Without a block or a record in between, turns go down this scale. -/
def rank : Turn → Nat
  | finished => 0
  | approached => 1
  | unfinished => 2
  | record => 3

end Turn

namespace ContainerReader

def takeBlock : Step α Turn := do
  let b ← onBlocks BlockReader.readBlock
  if b.recordCount = 0 then return .unfinished
  else do
    onBlocks (BlockReader.unpack b)
    modify fun r => { r with recordsLeft := r.blocks.recordCount.toInt.toNat }
    return .unfinished

def proceed : Step α Turn := do
  if (← get).recordsLeft ≠ 0 then do
    decodeOne
    return .record
  else if ← onBlocks BlockReader.approach then return .approached
  else do
    modify fun r => { r with current? := none }
    return .finished

def turn (last : Turn) : Step α Turn := do
  ensure (← get).started (.misuse (.notStarted .container))
  if last = .approached then takeBlock else proceed

theorem consumes_onBlocks {β : Type} {k : Nat} {m : EStateM Error BlockReader β}
    (h : Consumes BlockReader.left k m) : Consumes (bytesLeft (α := α)) k (onBlocks m) :=
  Consumes.focus h (fun _ => rfl) (fun _ _ => rfl)

theorem consumes_takeBlock : Consumes (bytesLeft (α := α)) 1 takeBlock := by
  refine Consumes.bind (j := 1) (k := 0) (consumes_onBlocks BlockReader.consumes_readBlock)
    fun b => Consumes.ite (Consumes.pure _) ?_
  refine Consumes.bindZero (j := 0) (k := 0) (consumes_onBlocks fun _ _ _ h => ?_) fun _ => ?_
  · exact BlockReader.left_unpack h
  · exact Consumes.bindZero (k := 0) (Consumes.modify fun _ => Nat.le_refl _) fun _ =>
      Consumes.pure _

theorem proceed_ok {r r' : ContainerReader α} {next : Turn} (h : proceed r = .ok next r') :
    r'.bytesLeft ≤ r.bytesLeft ∧
      (r'.recordsLeft < r.recordsLeft ∨ r'.recordsLeft = r.recordsLeft ∧ next.rank < 2) := by
  obtain ⟨_, _, hget, h⟩ := bind_eq_ok_iff.1 h
  cases hget
  split at h
  · obtain ⟨_, r₁, hdecode, h⟩ := bind_eq_ok_iff.1 h
    cases h
    have := decodeOne_ok hdecode
    omega
  · obtain ⟨granted, r₁, happroach, h⟩ := bind_eq_ok_iff.1 h
    have hbytes := consumes_onBlocks BlockReader.consumes_approach happroach
    obtain ⟨blocks, _, rfl⟩ := focus_eq_ok_iff.1 happroach
    cases granted with
    | true =>
      cases h
      exact ⟨hbytes, .inr ⟨rfl, by decide⟩⟩
    | false =>
      obtain ⟨_, _, hmodify, h⟩ := bind_eq_ok_iff.1 h
      cases hmodify
      cases h
      exact ⟨hbytes, .inr ⟨rfl, by decide⟩⟩

theorem turn_ok {r r' : ContainerReader α} {last next : Turn} (h : turn last r = .ok next r') :
    r'.bytesLeft < r.bytesLeft ∨ r'.bytesLeft = r.bytesLeft ∧
      (r'.recordsLeft < r.recordsLeft ∨ r'.recordsLeft = r.recordsLeft ∧
        (next.rank < 2 ∧ last ≠ .approached)) := by
  obtain ⟨_, _, hget, h⟩ := bind_eq_ok_iff.1 h
  cases hget
  obtain ⟨_, _, hstarted, h⟩ := bind_eq_ok_iff.1 h
  obtain ⟨_, rfl⟩ := ensure_eq_ok_iff.1 hstarted
  split at h
  · have := consumes_takeBlock h
    omega
  · next hlast =>
    have := proceed_ok h
    rcases Nat.lt_or_eq_of_le this.1 with hlt | heq
    · exact .inl hlt
    · exact .inr ⟨heq, this.2.imp id fun h => ⟨h.1, h.2, hlast⟩⟩

end ContainerReader

namespace Reader

def turn [RecordType α] (t : FileTree) (last : Turn) : EStateM Error (Reader α) Turn :=
  step (ContainerReader.turn last) (Turn.ofFound <$> PatternReader.advance t)

/-- A turn that does not finish uses something up or goes down the scale. -/
theorem turn_ok [RecordType α] {t : FileTree} {r r' : Reader α} {last next : Turn}
    (h : turn t last r = .ok next r') (hnext : next ≠ .finished) :
    r'.filesAhead < r.filesAhead ∨ r'.filesAhead = r.filesAhead ∧
      (r'.bytesLeft < r.bytesLeft ∨ r'.bytesLeft = r.bytesLeft ∧
        (r'.recordsLeft < r.recordsLeft ∨ r'.recordsLeft = r.recordsLeft ∧
          (next.rank < 2 ∧ last ≠ .approached))) := by
  simp only [turn, step] at h
  split at h
  · split at h
    · next hturn =>
      cases h
      exact .inr ⟨rfl, ContainerReader.turn_ok hturn⟩
    · cases h
  · split at h
    · next hadvance =>
      cases h
      obtain ⟨found, r₁, hadvance, h⟩ := bind_eq_ok_iff.1 hadvance
      cases h
      cases found with
      | false => exact absurd rfl hnext
      | true =>
        have := PatternReader.advance_true hadvance
        exact this.imp id (And.imp id (Or.imp id (And.imp id .inl)))
    · cases h

end Reader
end BlockContainer
