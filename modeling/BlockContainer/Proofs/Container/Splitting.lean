import BlockContainer.Proofs.Container.Pending
import BlockContainer.Source.Bundle

/-! # Reading while being split

A reader is read to its end in turns, and before each turn a controller may split it at any
fractions. What the reader returns and what it gives up are together the records of its
range, and the ranges lie one behind the other.
-/
namespace BlockContainer

variable {α : Type}

/-- Non-empty ranges that go up from `low` to `high`, each starting where the one before
it ends. -/
def OffsetRange.Ascends (low : UInt64) : List OffsetRange → UInt64 → Prop
  | [], high => low = high
  | r :: rest, high => r.start = low ∧ r.start < r.stop ∧ Ascends r.stop rest high

theorem OffsetRange.Ascends.append {low middle high : UInt64} {l m : List OffsetRange}
    (hl : Ascends low l middle) (hm : Ascends middle m high) : Ascends low (l ++ m) high := by
  induction l generalizing low with
  | nil =>
    obtain rfl : low = middle := hl
    exact hm
  | cons r rest ih => exact ⟨hl.1, hl.2.1, ih hl.2.2⟩

theorem OffsetRange.Ascends.le {low high : UInt64} {l : List OffsetRange} (h : Ascends low l high) :
    low ≤ high := by
  induction l generalizing low with
  | nil =>
    obtain rfl : low = high := h
    exact UInt64.le_refl _
  | cons r rest ih =>
    obtain ⟨rfl, hlt, hrest⟩ := h
    exact UInt64.le_trans (UInt64.le_of_lt hlt) (ih hrest)

theorem OffsetRange.Ascends.le_start {low high : UInt64} {l : List OffsetRange}
    (h : Ascends low l high) : ∀ r ∈ l, low ≤ r.start := by
  induction l generalizing low with
  | nil => simp
  | cons r rest ih =>
    obtain ⟨rfl, hlt, hrest⟩ := h
    intro b hb
    rcases List.mem_cons.1 hb with rfl | hb
    · exact UInt64.le_refl _
    · exact UInt64.le_trans (UInt64.le_of_lt hlt) (ih hrest b hb)

theorem OffsetRange.Ascends.pairwise {low high : UInt64} {l : List OffsetRange}
    (h : Ascends low l high) : l.Pairwise fun a b => a.start < b.start := by
  induction l generalizing low with
  | nil => exact .nil
  | cons r rest ih =>
    obtain ⟨-, hlt, hrest⟩ := h
    refine .cons (fun b hb => ?_) (ih hrest)
    exact UInt64.lt_of_lt_of_le hlt (hrest.le_start b hb)

def Container.span (c : Container α) (s : Source) : OffsetRange :=
  ⟨s.start, min s.stop (UInt64.ofNat c.content.length)⟩

def Container.recordsOf (c : Container α) (s : Source) : List α :=
  c.recordsIn (c.span s).start.toNat (c.span s).stop.toNat

structure Source.Within [RecordType α] (c : Container α) (t : FileTree) (s : Source) : Prop where
  mode_eq : s.mode = .file
  entry : ∃ number, t.entry s.path = .ok (.file number c.content)
  decoding : RecordType.decoding s.binding c.header = .ok c.decoding
  stop : s.stop = Source.unbounded ∨ s.stop.toNat ≤ c.content.length
  nonempty : s.start < (c.span s).stop

namespace Container

variable {c : Container α}

theorem toNat_span_stop (s : Source) :
    (c.span s).stop.toNat = min s.stop.toNat c.content.length := by
  have := c.length_lt
  rw [span, toNat_min, UInt64.toNat_ofNat']
  omega

theorem span_subrange (s : Source) (path : Bytes) (start : UInt64) {stop : UInt64}
    (hstop : stop.toNat ≤ c.content.length) : c.span (s.subrange path start stop) = ⟨start, stop⟩ := by
  have hspan : (c.span (s.subrange path start stop)).stop = stop := by
    rw [← UInt64.toNat_inj, toNat_span_stop]
    exact Nat.min_eq_left hstop
  exact congrArg (OffsetRange.mk start) hspan

theorem within_subrange [RecordType α] {t : FileTree} {s : Source} (h : s.Within c t)
    {start stop : UInt64} (hlt : start < stop) (hstop : stop.toNat ≤ c.content.length) :
    (s.subrange s.path start stop).Within c t :=
  ⟨rfl, h.entry, h.decoding, .inr hstop, by rw [span_subrange s s.path start hstop]; exact hlt⟩

theorem toNat_span_whole {s : Source} (hstop : s.stop = Source.unbounded) :
    (c.span s).stop.toNat = c.content.length := by
  have hlength := c.length_lt
  have hunbounded : (Source.unbounded : UInt64).toNat = 2 ^ 64 - 1 := rfl
  rw [toNat_span_stop, hstop]
  omega

/-- A source without bounds covers the whole file. -/
theorem within_whole [RecordType α] {t : FileTree} {s : Source} (hmode : s.mode = .file)
    (hstart : s.start = 0) (hstop : s.stop = Source.unbounded)
    (hentry : ∃ number, t.entry s.path = .ok (.file number c.content))
    (hdecoding : RecordType.decoding s.binding c.header = .ok c.decoding) : s.Within c t := by
  refine ⟨hmode, hentry, hdecoding, .inl hstop, ?_⟩
  have hsize := c.header_le
  rw [UInt64.lt_iff_toNat_lt, toNat_span_whole hstop, hstart]
  change 0 < c.content.length
  omega

theorem recordsOf_whole {s : Source} (hstart : s.start = 0) (hstop : s.stop = Source.unbounded) :
    c.recordsOf s = c.records := by
  rw [recordsOf, toNat_span_whole hstop]
  change c.recordsIn s.start.toNat c.content.length = c.records
  rw [hstart]
  exact c.recordsIn_all

end Container

namespace ContainerReader

def trySplits : List UInt64 → ContainerReader α → List Source × ContainerReader α
  | [], r => ([], r)
  | fraction :: rest, r =>
    let (residual?, r₁) := r.trySplit fraction
    let (more, r₂) := trySplits rest r₁
    (more ++ residual?.toList, r₂)

theorem left_trySplit (fraction : UInt64) (r : ContainerReader α) :
    (trySplit fraction r).2.bytesLeft = r.bytesLeft ∧
      (trySplit fraction r).2.recordsLeft = r.recordsLeft := by
  rcases trySplit_cases fraction r with h | ⟨cut, h, -⟩ <;> rw [h] <;> exact ⟨rfl, rfl⟩

theorem left_trySplits (fractions : List UInt64) (r : ContainerReader α) :
    (trySplits fractions r).2.bytesLeft = r.bytesLeft ∧
      (trySplits fractions r).2.recordsLeft = r.recordsLeft := by
  induction fractions generalizing r with
  | nil => exact ⟨rfl, rfl⟩
  | cons fraction rest ih =>
    obtain ⟨hbytes, hrecords⟩ := ih (trySplit fraction r).2
    obtain ⟨hbytes', hrecords'⟩ := left_trySplit fraction r
    exact ⟨hbytes.trans hbytes', hrecords.trans hrecords'⟩

def range (r : ContainerReader α) : OffsetRange := ⟨r.blocks.tracker.start, r.blocks.tracker.stop⟩

variable [RecordType α] {c : Container α} {t : FileTree} {r : ContainerReader α}

structure Reads (c : Container α) (t : FileTree) (r : ContainerReader α) : Prop where
  within : r.source.Within c t
  nonempty : r.range.start < r.range.stop
  stop_le : r.range.stop.toNat ≤ c.content.length

/-- What splits leave of a reader, and what they give up, from near to far. -/
structure Divided (c : Container α) (t : FileTree) (r r' : ContainerReader α)
    (given : List Source) : Prop where
  reads : Reads c t r'
  source_eq : r'.source = r.source
  start_eq : r'.range.start = r.range.start
  ascends : OffsetRange.Ascends r'.range.stop (given.map c.span) r.range.stop
  within : ∀ s ∈ given, s.Within c t

theorem Divided.refl (h : Reads c t r) : Divided c t r r [] :=
  ⟨h, rfl, rfl, rfl, by simp⟩

theorem Divided.append {r₁ r₂ : ContainerReader α} {far near : List Source}
    (h₁ : Divided c t r r₁ far) (h₂ : Divided c t r₁ r₂ near) : Divided c t r r₂ (near ++ far) where
  reads := h₂.reads
  source_eq := h₂.source_eq.trans h₁.source_eq
  start_eq := h₂.start_eq.trans h₁.start_eq
  ascends := by
    rw [List.map_append]
    exact h₂.ascends.append h₁.ascends
  within s hs := (List.mem_append.1 hs).elim (h₂.within s) (h₁.within s)

theorem divided_cutAt (h : Reads c t r) {cut : UInt64} (hstart : r.range.start < cut)
    (hstop : cut < r.range.stop) :
    Divided c t r (r.cutAt cut) [r.source.subrange r.source.path cut r.range.stop] := by
  have hle := UInt64.lt_iff_toNat_lt.1 hstop
  have hbound := h.stop_le
  have hspan := Container.span_subrange r.source r.source.path cut hbound
  refine ⟨⟨h.within, hstart, ?_⟩, rfl, rfl, ?_, ?_⟩
  · change cut.toNat ≤ _
    omega
  · rw [List.map_singleton, hspan]
    exact ⟨rfl, hstop, rfl⟩
  · intro s hs
    rw [List.mem_singleton.1 hs]
    exact Container.within_subrange h.within hstop hbound

theorem recordsOf_residual (h : Reads c t r) (cut : UInt64) :
    c.recordsOf (r.source.subrange r.source.path cut r.range.stop) =
      c.recordsIn cut.toNat r.range.stop.toNat := by
  rw [Container.recordsOf, Container.span_subrange r.source r.source.path cut h.stop_le]

/-- Splits divide the records of a reader between it and what it gives up. -/
theorem trySplits_of_divides {P : ContainerReader α → List α → Prop} (hP : Divides c P)
    (fractions : List UInt64) {records : List α} (h : Reads c t r) (hr : P r records) :
    ∃ kept, Divided c t r (trySplits fractions r).2 (trySplits fractions r).1 ∧
      P (trySplits fractions r).2 kept ∧
      records = kept ++ (trySplits fractions r).1.flatMap c.recordsOf := by
  induction fractions generalizing r records with
  | nil => exact ⟨records, .refl h, hr, by simp [trySplits]⟩
  | cons fraction rest ih =>
    rcases hP hr fraction with hnone | ⟨cut, kept, hcut, hstart, hstop, hkept, hrecords⟩
    · obtain ⟨kept, hdivided, hkept, hrecords⟩ := ih h hr
      refine ⟨kept, ?_, ?_, ?_⟩
      all_goals simpa [trySplits, hnone]
    · have hdivided := divided_cutAt h hstart hstop
      obtain ⟨kept', hdivided', hkept', hrecords'⟩ := ih hdivided.reads hkept
      have hgiven := recordsOf_residual h cut
      refine ⟨kept', ?_, ?_, ?_⟩
      · simp only [trySplits, hcut]
        exact hdivided.append hdivided'
      · simpa [trySplits, hcut] using hkept'
      · simp only [trySplits, hcut, Option.toList_some, List.flatMap_append]
        rw [hrecords, hrecords', List.append_assoc]
        congr 2
        rw [List.flatMap_singleton]
        exact hgiven.symm

end ContainerReader

/-- What reading to the end came to: the range that was left to the reader, the records
that it returned, and the sources that it gave up, from near to far. -/
structure SplitReading (α : Type) where
  range : OffsetRange
  records : List α
  residuals : List Source

namespace ContainerReader

/-- Reads to the end. Before each turn the reader is split at the fractions that are due. -/
def readOut (fractions : Nat → List UInt64) (due : Nat) (last : Turn) (r : ContainerReader α) :
    Except Error (SplitReading α) :=
  let split := trySplits (fractions due) r
  if _hlast : last = .finished then
    .ok { range := split.2.range, records := [], residuals := split.1 }
  else match _hturn : turn last split.2 with
    | .error e _ => .error e
    | .ok next r' =>
      match readOut fractions (due + 1) next r' with
      | .error e => .error e
      | .ok rest => .ok { rest with
          records := brought next r' ++ rest.records, residuals := rest.residuals ++ split.1 }
termination_by (r.bytesLeft, r.recordsLeft, last.rank)
decreasing_by
  have hleft := left_trySplits (fractions due) r
  have hrank := turn_ok _hturn
  rw [hleft.1, hleft.2] at hrank
  simp only [Prod.lex_def]
  refine hrank.imp id (And.imp id (Or.imp id (And.imp id fun h => ?_)))
  obtain ⟨hnext, happroached⟩ := h
  cases last <;> first | exact absurd rfl _hlast | exact absurd rfl happroached | skip
  · exact hnext
  · exact Nat.lt_succ_of_lt hnext

def readSplit [RecordType α] (t : FileTree) (scanSize : UInt64) (fractions : Nat → List UInt64)
    (source : Source) : Except Error (SplitReading α) := do
  let r ← create t source scanSize
  let split := trySplits (fractions 0) r
  match begin t split.2 with
  | .error e _ => .error e
  | .ok () r => do
    let rest ← readOut fractions 1 .unfinished r
    return { rest with residuals := rest.residuals ++ split.1 }

theorem readOut_unsplit {due : Nat} {last : Turn} {r : ContainerReader α}
    {reading : SplitReading α}
    (h : readOut (fun _ => []) due last r = .ok reading) : reading.residuals = [] := by
  fun_induction readOut (fun _ => []) due last r generalizing reading with
  | case1 due r =>
    cases h
    rfl
  | case2 => cases h
  | case3 => cases h
  | case4 due last r split hlast next r' hturn rest hrest =>
    rename_i ih
    cases h
    change rest.residuals ++ [] = []
    rw [ih hrest]
    rfl

variable [RecordType α] {c : Container α} {t : FileTree} {r : ContainerReader α}

/-- What reading to the end came to accounts for all records that the reader had. -/
structure Accounts (c : Container α) (t : FileTree) (r : ContainerReader α) (records : List α)
    (reading : SplitReading α) : Prop where
  start_eq : reading.range.start = r.range.start
  nonempty : reading.range.start < reading.range.stop
  ascends : OffsetRange.Ascends reading.range.stop (reading.residuals.map c.span) r.range.stop
  within : ∀ s ∈ reading.residuals, s.Within c t
  records_eq : records = reading.records ++ reading.residuals.flatMap c.recordsOf

theorem Accounts.of_divided {r' : ContainerReader α} {given : List Source} {kept records : List α}
    {reading : SplitReading α} (h : Divided c t r r' given)
    (hrecords : records = kept ++ given.flatMap c.recordsOf) (hread : Accounts c t r' kept reading) :
    Accounts c t r records { reading with residuals := reading.residuals ++ given } where
  start_eq := hread.start_eq.trans h.start_eq
  nonempty := hread.nonempty
  ascends := by
    rw [List.map_append]
    exact hread.ascends.append h.ascends
  within s hs := (List.mem_append.1 hs).elim (hread.within s) (h.within s)
  records_eq := by
    rw [hrecords, hread.records_eq, List.flatMap_append, List.append_assoc]

theorem reads_of_same {r' : ContainerReader α} (h : Reads c t r) (hsame : SameRange r r') :
    Reads c t r' := by
  have hrange : r'.range = r.range := by
    simp only [range, hsame.start_eq, hsame.stop_eq]
  exact ⟨by rw [hsame.source_eq]; exact h.within, by rw [hrange]; exact h.nonempty,
    by rw [hrange]; exact h.stop_le⟩

theorem turn_of_split (fractions : List UInt64) {last : Turn} {records : List α}
    (h : Reads c t r) (howes : Owes c last r records) :
    ∃ kept next r', Divided c t r (trySplits fractions r).2 (trySplits fractions r).1 ∧
      records = kept ++ (trySplits fractions r).1.flatMap c.recordsOf ∧
      turn last (trySplits fractions r).2 = .ok next r' ∧
      Moved c (trySplits fractions r).2 kept next r' := by
  obtain ⟨kept, hdivided, hkept, hrecords⟩ :=
    trySplits_of_divides (divides_owes c last) fractions h howes
  obtain ⟨next, r', hrun, hmoved⟩ := turn_of_owes hkept
  exact ⟨kept, next, r', hdivided, hrecords, hrun, hmoved⟩

theorem accounts_at_end (fractions : List UInt64) {records : List α} (h : Reads c t r)
    (howes : Owes c .finished r records) :
    Accounts c t r records ⟨(trySplits fractions r).2.range, [], (trySplits fractions r).1⟩ := by
  obtain ⟨kept, hdivided, hkept, hrecords⟩ :=
    trySplits_of_divides (divides_owes c .finished) fractions h howes
  rw [hkept.finished] at hrecords
  exact ⟨hdivided.start_eq, hdivided.reads.nonempty, hdivided.ascends, hdivided.within, hrecords⟩

/-- Reading to the end never fails and accounts for all records. -/
theorem readOut_of_owes (fractions : Nat → List UInt64) (due : Nat) {last : Turn}
    {records : List α} (h : Reads c t r) (howes : Owes c last r records) :
    ∃ reading, readOut fractions due last r = .ok reading ∧ Accounts c t r records reading := by
  fun_induction readOut fractions due last r generalizing records with
  | case1 due r => exact ⟨_, rfl, accounts_at_end (fractions due) h howes⟩
  | case2 due last r split hlast e r' =>
    rename_i hturn
    obtain ⟨kept, next, r'', -, -, hrun, -⟩ := turn_of_split (fractions due) h howes
    cases hturn.symm.trans hrun
  | case3 due last r split hlast next r' hturn e hrest =>
    rename_i ih
    obtain ⟨kept, next', r'', hdivided, hrecords, hrun, hmoved⟩ :=
      turn_of_split (fractions due) h howes
    cases hturn.symm.trans hrun
    obtain ⟨rest, howes, -⟩ := hmoved.owes
    obtain ⟨reading, hread, -⟩ := ih (reads_of_same hdivided.reads hmoved.same) howes
    rw [hread] at hrest
    cases hrest
  | case4 due last r split hlast next r' hturn rest hrest =>
    rename_i ih
    obtain ⟨kept, next', r'', hdivided, hrecords, hrun, hmoved⟩ :=
      turn_of_split (fractions due) h howes
    cases hturn.symm.trans hrun
    obtain ⟨remaining, howes, hkept⟩ := hmoved.owes
    obtain ⟨reading, hread, haccounts⟩ := ih (reads_of_same hdivided.reads hmoved.same) howes
    rw [hread] at hrest
    cases hrest
    have hbefore : Accounts c t (trySplits (fractions due) r).2 kept
        { rest with records := brought next r' ++ rest.records } :=
      ⟨haccounts.start_eq.trans hmoved.same.start_eq, haccounts.nonempty,
        by simpa [range, hmoved.same.stop_eq] using haccounts.ascends, haccounts.within,
        by rw [hkept, haccounts.records_eq, List.append_assoc]⟩
    exact ⟨_, rfl, hbefore.of_divided hdivided hrecords⟩

theorem create_of_within {s : Source} (h : s.Within c t) {scanSize : UInt64}
    (hfind : s.start = 0 ∨ c.MarkersEndBlocks ∧ 0 < scanSize.toNat) :
    ∃ r : ContainerReader α, create t s scanSize = .ok r ∧ Unopened c t r ∧ Reads c t r ∧
      r.source = s ∧ r.range = c.span s := by
  obtain ⟨number, hentry⟩ := h.entry
  have hspan := Container.toNat_span_stop (c := c) s
  have hnonempty := UInt64.lt_iff_toNat_lt.1 h.nonempty
  obtain ⟨r, hcreate, hunopened, hsource, hstart, hstop⟩ :=
    create_unopened hentry (by omega) h.decoding hfind
  have hrange : r.range = c.span s := by
    have : r.blocks.tracker.stop = (c.span s).stop := by
      rw [← UInt64.toNat_inj, hstop, hspan]
      omega
    rw [range, hstart, this]
    rfl
  refine ⟨r, hcreate, hunopened, ⟨by rw [hsource]; exact h, ?_, ?_⟩, hsource, hrange⟩
  · rw [hrange]
    exact h.nonempty
  · rw [hrange, hspan]
    exact Nat.min_le_right _ _

/-- However a reader of a source is split, it and what it gives up account for all records
of the source. -/
theorem readSplit_of_within {s : Source} (h : s.Within c t) {scanSize : UInt64}
    (hfind : s.start = 0 ∨ c.MarkersEndBlocks ∧ 0 < scanSize.toNat)
    (fractions : Nat → List UInt64) :
    ∃ reading : SplitReading α, readSplit t scanSize fractions s = .ok reading ∧
      OffsetRange.Ascends s.start (reading.range :: reading.residuals.map c.span) (c.span s).stop ∧
      (∀ s' ∈ reading.residuals, s'.Within c t) ∧
      c.recordsOf s = reading.records ++ reading.residuals.flatMap c.recordsOf := by
  obtain ⟨r, hcreate, hunopened, hreads, -, hrange⟩ := create_of_within h hfind
  obtain ⟨kept, hdivided, ⟨hunopened', hkept⟩, hrecords⟩ :=
    trySplits_of_divides (divides_holds c t) (fractions 0) hreads ⟨hunopened, rfl⟩
  obtain ⟨r', hbegin, hsame, howes⟩ := begin_of_unopened hunopened'
  rw [← hkept] at howes
  obtain ⟨reading, hread, haccounts⟩ :=
    readOut_of_owes fractions 1 (reads_of_same hdivided.reads hsame) howes
  have hbefore : Accounts c t (trySplits (fractions 0) r).2 kept reading :=
    ⟨haccounts.start_eq.trans hsame.start_eq, haccounts.nonempty,
      by simpa [range, hsame.stop_eq] using haccounts.ascends, haccounts.within,
      haccounts.records_eq⟩
  have hall := hbefore.of_divided hdivided hrecords
  have hrecordsOf : c.recordsOf s = c.recordsIn r.range.start.toNat r.range.stop.toNat := by
    rw [hrange]
    rfl
  refine ⟨_, ?_, ⟨?_, hall.nonempty, ?_⟩, hall.within, hrecordsOf.trans hall.records_eq⟩
  · simp only [readSplit, hcreate, bind, Except.bind, hbegin, hread]
    rfl
  · exact hall.start_eq.trans (congrArg OffsetRange.start hrange)
  · rw [← hrange]
    exact hall.ascends

theorem readSplit_unsplit {s : Source} {scanSize : UInt64} {reading : SplitReading α}
    (h : readSplit t scanSize (fun _ => []) s = .ok reading) : reading.residuals = [] := by
  simp only [readSplit, bind, Except.bind, trySplits] at h
  split at h
  · cases h
  · split at h
    · cases h
    · split at h
      · cases h
      · next rest hrest =>
        cases h
        change rest.residuals ++ [] = []
        rw [readOut_unsplit hrest]
        rfl

end ContainerReader
end BlockContainer
