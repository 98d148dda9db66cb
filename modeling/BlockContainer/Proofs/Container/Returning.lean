import BlockContainer.Proofs.Container.Pending

/-! # What a reader returns to the end

A reader that is started and moved on as long as it finds a record returns the records of
its range one after another, and then says that there is none.
-/
namespace BlockContainer.ContainerReader

variable {α : Type} {c : Container α}

/-- From this call on the reader returns just these records. -/
def Returns : EStateM.Result Error (ContainerReader α) Bool → List α → Prop
  | .ok false _, [] => True
  | .ok true r, record :: rest => r.current = .ok record ∧ Returns (advance r) rest
  | _, _ => False

theorem SameRange.trans {r r' r'' : ContainerReader α} (h : SameRange r r')
    (h' : SameRange r' r'') : SameRange r r'' :=
  ⟨h'.source_eq.trans h.source_eq, h'.start_eq.trans h.start_eq, h'.stop_eq.trans h.stop_eq⟩

/-- What comes of a reader with these records comes of the one before it that had the same. -/
theorem Moved.after {r r' r'' : ContainerReader α} {records rest : List α} {next : Turn}
    (h : Moved c r' rest next r'') (hsame : SameRange r r') (hrecords : records = rest) :
    Moved c r records next r'' := by
  obtain rfl := hrecords
  exact ⟨hsame.trans h.same, h.owes, h.record, h.finished⟩

/-- The turns of a call bring the first record, or find that there is none. -/
theorem turns_of_owes {last : Turn} {r : ContainerReader α} {records : List α}
    (h : Owes c last r records) :
    ∃ found r', turns last r = .ok found r' ∧ Moved c r records (.ofFound found) r' := by
  fun_induction turns last r generalizing records with
  | case1 last r e r' hturn =>
    obtain ⟨next, r'', hrun, -⟩ := turn_of_owes h
    cases hturn.symm.trans hrun
  | case2 last r r' hturn =>
    obtain ⟨next, r'', hrun, hmoved⟩ := turn_of_owes h
    cases hturn.symm.trans hrun
    exact ⟨false, r', rfl, hmoved⟩
  | case3 last r r' hturn =>
    obtain ⟨next, r'', hrun, hmoved⟩ := turn_of_owes h
    cases hturn.symm.trans hrun
    exact ⟨true, r', rfl, hmoved⟩
  | case4 last r r' hturn ih | case5 last r r' hturn ih =>
    obtain ⟨next, r'', hrun, hmoved⟩ := turn_of_owes h
    cases hturn.symm.trans hrun
    obtain ⟨rest, howes, hrecords⟩ := hmoved.owes
    obtain ⟨found, r'', hturns, hmoved'⟩ := ih howes
    exact ⟨found, r'', hturns, hmoved'.after hmoved.same hrecords⟩

theorem advance_of_owes {last : Turn} (hlast : last ≠ .approached) {r : ContainerReader α}
    {records : List α} (h : Owes c last r records) :
    ∃ found r', advance r = .ok found r' ∧ Moved c r records (.ofFound found) r' := by
  obtain ⟨inBlock, hunder, -⟩ := id h
  rw [advance_eq_turns hlast r hunder.started]
  exact turns_of_owes h

theorem start_of_unopened [RecordType α] {t : FileTree} {r : ContainerReader α}
    (h : Unopened c t r) :
    ∃ found r', start t r = .ok found r' ∧
      Moved c r (c.recordsIn r.blocks.tracker.start.toNat r.blocks.tracker.stop.toNat)
        (.ofFound found) r' := by
  obtain ⟨r₁, hbegin, hsame, howes⟩ := begin_of_unopened h
  obtain ⟨found, r', hadvance, hmoved⟩ := advance_of_owes (by decide) howes
  exact ⟨found, r', (start_of_begin hbegin).trans hadvance, hmoved.after hsame rfl⟩

/-- The record that was brought is the first of those that there were. -/
theorem Moved.first {r r' : ContainerReader α} {records : List α}
    (h : Moved c r records .record r') :
    ∃ x rest, records = x :: rest ∧ r'.current = .ok x ∧ Owes c .record r' rest := by
  obtain ⟨rest, howes, hrecords⟩ := h.owes
  obtain ⟨x, hx⟩ := Option.isSome_iff_exists.1 (h.record rfl)
  have hbrought : brought .record r' = [x] := by simp [brought, hx]
  rw [hbrought, List.singleton_append] at hrecords
  exact ⟨x, rest, hrecords, by simp [current, hx], howes⟩

/-- Further calls return the other records. -/
theorem returns_of_moved {r r' : ContainerReader α} {records : List α} {found : Bool}
    (h : Moved c r records (.ofFound found) r') : Returns (.ok found r') records := by
  induction records generalizing r r' found with
  | nil =>
    cases found with
    | false => trivial
    | true =>
      obtain ⟨x, rest, hrecords, -⟩ := h.first
      cases hrecords
  | cons record records ih =>
    cases found with
    | false => cases h.finished rfl
    | true =>
      obtain ⟨x, rest, hrecords, hcurrent, howes⟩ := h.first
      cases hrecords
      obtain ⟨found, r'', hadvance, hmoved⟩ := advance_of_owes (by decide) howes
      exact ⟨hcurrent, by rw [hadvance]; exact ih hmoved⟩

theorem returns_of_begin [RecordType α] {t : FileTree} {r r' : ContainerReader α}
    {records : List α} (hbegin : begin t r = .ok () r') (howes : Owes c .unfinished r' records) :
    Returns (start t r) records := by
  obtain ⟨found, r'', hadvance, hmoved⟩ := advance_of_owes (by decide) howes
  rw [start_of_begin hbegin, hadvance]
  exact returns_of_moved hmoved

/-- A reader that is started returns the records of its range. -/
theorem returns_start [RecordType α] {t : FileTree} {r : ContainerReader α}
    (h : Unopened c t r) : Returns (start t r)
      (c.recordsIn r.blocks.tracker.start.toNat r.blocks.tracker.stop.toNat) := by
  obtain ⟨r', hbegin, -, howes⟩ := begin_of_unopened h
  exact returns_of_begin hbegin howes

/-- A reader of a whole container returns all of its records. -/
theorem returns_whole [RecordType α] {t : FileTree} {source : Source} {number : Nat}
    (hentry : t.entry source.path = .ok (.file number c.content)) (hstart : source.start = 0)
    (hstop : source.stop = Source.unbounded)
    (hdecoding : RecordType.decoding source.binding c.header = .ok c.decoding) (scanSize : UInt64) :
    ∃ r : ContainerReader α, create t source scanSize = .ok r ∧ Returns (start t r) c.records := by
  have hlength := c.length_lt
  have hle : source.start.toNat ≤ c.content.length := by
    rw [hstart]
    exact Nat.zero_le _
  have hfind : source.start = 0 ∨ c.MarkersEndBlocks ∧ 0 < scanSize.toNat := .inl hstart
  obtain ⟨r, hcreate, hunopened, -, hfirst, hlast⟩ := create_unopened hentry hle hdecoding hfind
  have hreturns := returns_start hunopened
  have hend : r.blocks.tracker.stop.toNat = c.content.length := by
    have hunbounded : (Source.unbounded : UInt64).toNat = 2 ^ 64 - 1 := rfl
    have hzero : (0 : UInt64).toNat = 0 := rfl
    rw [hlast, hstart, hstop]
    omega
  rw [hfirst, hstart, hend] at hreturns
  exact ⟨r, hcreate, by rwa [← c.recordsIn_all]⟩

end BlockContainer.ContainerReader
