import BlockContainer.Proofs.Container.Assembly
import BlockContainer.Proofs.Container.Splitting
import BlockContainer.Proofs.Source.Bundling

/-! # Every splitting partitions the records

A source is cut into bundles, or read by a reader that is split, and so are the bundles and
what the readers give up, as a plan says. Whatever the plan, the ranges that are read in the
end lie one behind the other from the start of the file to its end, and the records that
their readers return, in this order, are the records of the file.
-/
namespace BlockContainer

variable {α : Type} {c : Container α} {t : FileTree}

theorem OffsetRange.Ascends.recordsIn {low high : UInt64} {l : List OffsetRange}
    (h : Ascends low l high) :
    c.recordsIn low.toNat high.toNat = l.flatMap fun r => c.recordsIn r.start.toNat r.stop.toNat := by
  induction l generalizing low with
  | nil =>
    obtain rfl : low = high := h
    exact Container.recordsIn_eq_nil fun b _ hin => hin
  | cons r rest ih =>
    obtain ⟨rfl, hlt, hrest⟩ := h
    have hle := UInt64.le_iff_toNat_le.1 hrest.le
    rw [UInt64.lt_iff_toNat_lt] at hlt
    rw [List.flatMap_cons, ← ih hrest]
    exact Container.recordsIn_append (Nat.le_of_lt hlt) hle

namespace Source

variable [RecordType α] {s : Source}

theorem Within.resolvedStop (h : s.Within c t) : s.resolvedStop t = .ok (c.span s).stop := by
  obtain ⟨number, hentry⟩ := h.entry
  have hlength := c.length_lt
  have hsize : t.fileSize s.path = .ok c.content.length := by
    rw [FileTree.fileSize, hentry]
  have hspan := Container.toNat_span_stop (c := c) s
  rw [Source.resolvedStop]
  by_cases hunbounded : s.stop = unbounded
  · have hstop : (c.span s).stop = UInt64.ofNat c.content.length := by
      have : (unbounded : UInt64).toNat = 2 ^ 64 - 1 := rfl
      rw [← UInt64.toNat_inj, hspan, hunbounded, UInt64.toNat_ofNat']
      omega
    rw [if_pos hunbounded, hsize, hstop]
    rfl
  · have hle := h.stop.resolve_left hunbounded
    have hstop : (c.span s).stop = s.stop := by
      rw [← UInt64.toNat_inj, hspan]
      omega
    rw [if_neg hunbounded, hstop]

theorem Within.validate (h : s.Within c t) : s.validate = .ok () := by
  obtain ⟨number, hentry⟩ := h.entry
  have hpath : s.path ≠ [] := by
    intro hempty
    rw [hempty] at hentry
    cases hentry
  have hspan := Container.toNat_span_stop (c := c) s
  have hlt := UInt64.lt_iff_toNat_lt.1 h.nonempty
  have horder : ¬s.stop < s.start := by
    rw [UInt64.lt_iff_toNat_lt]
    omega
  have hmode : ¬(s.mode = .pattern ∧ (s.start ≠ 0 ∨ s.stop ≠ unbounded)) := by
    simp [h.mode_eq]
  rw [Source.validate, if_neg (by simpa using hpath), if_neg horder, if_neg hmode]

theorem within_withMinBundleSize (h : s.Within c t) (least : UInt64) :
    (s.withMinBundleSize least).Within c t :=
  ⟨h.mode_eq, h.entry, h.decoding, h.stop, h.nonempty⟩

/-- Bundles lie one behind the other and cover what was cut. -/
theorem cutFrom_ascends (h : s.Within c t) {size : UInt64} (hsize : 0 < size)
    {offset stop : UInt64} (hle : offset ≤ stop) (hstop : stop.toNat ≤ c.content.length) :
    OffsetRange.Ascends offset ((s.cutFrom size hsize offset stop).map c.span) stop ∧
      ∀ b ∈ s.cutFrom size hsize offset stop, b.Within c t ∧ b.path = s.path := by
  fun_induction cutFrom s size hsize offset stop with
  | case1 offset hlt cut ih =>
    have hcut := lt_bundleStop s.minBundleSize hsize hlt
    have hcutStop := bundleStop_le s.minBundleSize size hlt
    have hcutLength : cut.toNat ≤ c.content.length :=
      Nat.le_trans (UInt64.le_iff_toNat_le.1 hcutStop) hstop
    obtain ⟨hrest, hwithin⟩ := ih hcutStop
    refine ⟨?_, fun b hb => ?_⟩
    · rw [List.map_cons, Container.span_subrange s s.path offset hcutLength]
      exact ⟨rfl, hcut, hrest⟩
    · rcases List.mem_cons.1 hb with rfl | hb
      · exact ⟨Container.within_subrange h hcut hcutLength, rfl⟩
      · exact hwithin b hb
  | case2 offset hnot =>
    refine ⟨?_, by simp⟩
    exact UInt64.le_antisymm hle (UInt64.not_lt.1 hnot)

/-- Cutting a source into bundles cannot fail, and they lie one behind the other. -/
theorem bundles_of_within (h : s.Within c t) (desired : UInt64) :
    ∃ bundles, s.bundles t desired = .ok bundles ∧
      OffsetRange.Ascends s.start (bundles.map c.span) (c.span s).stop ∧
      ∀ b ∈ bundles, b.Within c t ∧ b.path = s.path := by
  rw [bundles_of_file h.mode_eq h.validate]
  by_cases hwhole : (c.span s).stop ≤ s.start ∨ (c.span s).stop - s.start ≤ s.bundleSize desired
  · refine ⟨[s], cutRange_short h.resolvedStop hwhole, ⟨rfl, h.nonempty, rfl⟩, fun b hb => ?_⟩
    rw [List.mem_singleton.1 hb]
    exact ⟨h, rfl⟩
  · have hstop : (c.span s).stop.toNat ≤ c.content.length := by
      rw [Container.toNat_span_stop]
      exact Nat.min_le_right _ _
    obtain ⟨hascends, hwithin⟩ := cutFrom_ascends h (s.bundleSize_pos desired)
      (UInt64.le_of_lt h.nonempty) hstop
    exact ⟨_, cutRange_long h.resolvedStop hwhole, hascends, hwithin⟩

/-- The bundles of a whole container hold its records, one bundle after another. -/
theorem bundles_of_whole {path : Bytes} (hentry : ∃ number, t.entry path = .ok (.file number c.content))
    (hdecoding : RecordType.decoding s.binding c.header = .ok c.decoding) (desired : UInt64) :
    ∃ bundles, (s.subrange path 0 unbounded).bundles t desired = .ok bundles ∧
      (∀ b ∈ bundles, b.Within c t ∧ b.path = path) ∧ bundles.flatMap c.recordsOf = c.records := by
  have hwithin : (s.subrange path 0 unbounded).Within c t :=
    Container.within_whole rfl rfl rfl hentry hdecoding
  obtain ⟨bundles, hrun, hascends, hbundles⟩ := bundles_of_within hwithin desired
  refine ⟨bundles, hrun, hbundles, ?_⟩
  have hparts := hascends.recordsIn (c := c)
  rw [List.flatMap_map] at hparts
  rw [← Container.recordsOf_whole (s := s.subrange path 0 unbounded) rfl rfl]
  exact hparts.symm

/-- The bundles of a pattern are those of the files that it matches. -/
theorem bundles_of_pattern (hmode : s.mode = .pattern) (hvalid : s.validate = .ok ())
    {desired : UInt64} {cuts : List (List Source)}
    (hcuts : ((t.glob s.path).mapM fun path =>
      (s.subrange path 0 unbounded).bundles t desired) = .ok cuts) :
    s.bundles t desired = .ok cuts.flatten := by
  rw [bundles, hvalid]
  simp only [hmode]
  change (do
    let cuts ← (t.glob s.path).mapM fun path => (s.subrange path 0 unbounded).bundles t desired
    return cuts.flatten) = _
  rw [hcuts]
  rfl

end Source

structure Share (α : Type) where
  range : OffsetRange
  records : List α

/-- What is to be done with a source: read it, cut it into bundles of some desired and least
size, or read it with splits at some fractions before each turn. The sources that come of it,
counted from the near end, each have a plan of their own. -/
inductive Plan where
  | read
  | cut (desired least : UInt64) (parts : Nat → Plan)
  | split (fractions : Nat → List UInt64) (residuals : Nat → Plan)

namespace Plan

def deliverAll (deliver : Nat → Source → Except Error (List (Share α))) (i : Nat) :
    List Source → Except Error (List (Share α))
  | [] => .ok []
  | s :: rest => do
    let shares ← deliver i s
    let more ← deliverAll deliver (i + 1) rest
    return shares ++ more

/-- Carries out a plan. The shares stand from the near end to the far one. -/
def deliver [RecordType α] (t : FileTree) (scanSize : UInt64) :
    Plan → Source → Except Error (List (Share α))
  | read, s => do
    let reading ← ContainerReader.readSplit t scanSize (fun _ => []) s
    return [⟨reading.range, reading.records⟩]
  | cut desired least parts, s => do
    let bundles ← (s.withMinBundleSize least).bundles t desired
    deliverAll (fun i => (parts i).deliver t scanSize) 0 bundles
  | split fractions residuals, s => do
    let reading ← ContainerReader.readSplit t scanSize fractions s
    let shares ← deliverAll (fun i => (residuals i).deliver t scanSize) 0 reading.residuals
    return ⟨reading.range, reading.records⟩ :: shares

/-- The shares lie one behind the other and hold the records of all bytes between the ends. -/
structure Partitions (c : Container α) (low : UInt64) (shares : List (Share α)) (high : UInt64) :
    Prop where
  ascends : OffsetRange.Ascends low (shares.map Share.range) high
  records_eq : shares.flatMap Share.records = c.recordsIn low.toNat high.toNat

variable [RecordType α]

theorem deliverAll_partitions {deliver : Nat → Source → Except Error (List (Share α))}
    (h : ∀ i s, s.Within c t → ∃ shares, deliver i s = .ok shares ∧
      Partitions c s.start shares (c.span s).stop)
    (i : Nat) {low high : UInt64} {sources : List Source}
    (hascends : OffsetRange.Ascends low (sources.map c.span) high)
    (hwithin : ∀ s ∈ sources, s.Within c t) :
    ∃ shares, deliverAll deliver i sources = .ok shares ∧ Partitions c low shares high := by
  induction sources generalizing i low with
  | nil =>
    obtain rfl : low = high := hascends
    exact ⟨[], rfl, rfl, (Container.recordsIn_eq_nil fun b _ hin => hin).symm⟩
  | cons s rest ih =>
    obtain ⟨hstart, hlt, hrest⟩ := hascends
    obtain rfl : s.start = low := hstart
    obtain ⟨shares, hrun, hshares⟩ := h i s (hwithin s (by simp))
    obtain ⟨more, hrunMore, hmore⟩ := ih (i + 1) hrest fun b hb => hwithin b (by simp [hb])
    refine ⟨shares ++ more, ?_, ?_, ?_⟩
    · simp only [deliverAll, bind, Except.bind, hrun, hrunMore]
      rfl
    · rw [List.map_append]
      exact hshares.ascends.append hmore.ascends
    · have hle := UInt64.le_iff_toNat_le.1 hrest.le
      have hlt := UInt64.lt_iff_toNat_lt.1 hlt
      rw [List.flatMap_append, hshares.records_eq, hmore.records_eq]
      exact (Container.recordsIn_append (Nat.le_of_lt hlt) hle).symm

/-- Carrying out a plan cannot fail, and the shares partition what the source covers. -/
theorem deliver_partitions (hmarkers : c.MarkersEndBlocks) {scanSize : UInt64}
    (hscan : 0 < scanSize) (plan : Plan) {s : Source} (h : s.Within c t) :
    ∃ shares, plan.deliver t scanSize s = .ok shares ∧
      Partitions c s.start shares (c.span s).stop := by
  have hfind : c.MarkersEndBlocks ∧ 0 < scanSize.toNat :=
    ⟨hmarkers, UInt64.lt_iff_toNat_lt.1 hscan⟩
  induction plan generalizing s with
  | read =>
    obtain ⟨reading, hrun, ⟨hstart, hlt, hascends⟩, -, hrecords⟩ :=
      ContainerReader.readSplit_of_within h (.inr hfind) fun _ => []
    rw [ContainerReader.readSplit_unsplit hrun] at hascends hrecords
    refine ⟨[⟨reading.range, reading.records⟩], ?_, ⟨hstart, hlt, hascends⟩, ?_⟩
    · simp only [deliver, bind, Except.bind, hrun]
      rfl
    · rw [List.flatMap_singleton, ← List.append_nil reading.records]
      exact hrecords.symm
  | cut desired least parts ih =>
    obtain ⟨bundles, hrun, hascends, hwithin⟩ :=
      Source.bundles_of_within (Source.within_withMinBundleSize h least) desired
    obtain ⟨shares, hshares, hpartitions⟩ :=
      deliverAll_partitions (fun i s hs => ih i hs) 0 hascends fun b hb => (hwithin b hb).1
    refine ⟨shares, ?_, hpartitions⟩
    simp only [deliver, bind, Except.bind, hrun]
    exact hshares
  | split fractions residuals ih =>
    obtain ⟨reading, hrun, ⟨hstart, hlt, hascends⟩, hwithin, hrecords⟩ :=
      ContainerReader.readSplit_of_within h (.inr hfind) fractions
    obtain ⟨shares, hshares, hpartitions⟩ :=
      deliverAll_partitions (fun i s hs => ih i hs) 0 hascends hwithin
    refine ⟨⟨reading.range, reading.records⟩ :: shares, ?_,
      ⟨hstart, hlt, hpartitions.ascends⟩, ?_⟩
    · simp only [deliver, bind, Except.bind, hrun, hshares]
      rfl
    · have hgiven : c.recordsIn reading.range.stop.toNat (c.span s).stop.toNat =
          reading.residuals.flatMap c.recordsOf := by
        rw [hascends.recordsIn, List.flatMap_map]
        rfl
      rw [List.flatMap_cons, hpartitions.records_eq, hgiven]
      exact hrecords.symm

/-- Whatever is done with the whole of a container, the records that the readers return in
the order of their ranges are those of the file, and the ranges cover the file once. -/
theorem deliver_whole (hmarkers : c.MarkersEndBlocks) {scanSize : UInt64} (hscan : 0 < scanSize)
    {s : Source} {number : Nat} (hmode : s.mode = .file) (hstart : s.start = 0)
    (hstop : s.stop = Source.unbounded) (hentry : t.entry s.path = .ok (.file number c.content))
    (hdecoding : RecordType.decoding s.binding c.header = .ok c.decoding) (plan : Plan) :
    ∃ shares, plan.deliver t scanSize s = .ok shares ∧
      OffsetRange.Ascends 0 (shares.map Share.range) (UInt64.ofNat c.content.length) ∧
      (shares.map Share.range).Pairwise (fun a b => a.start < b.start) ∧
      shares.flatMap Share.records = c.records := by
  have hlength := c.length_lt
  have hsize := c.header_le
  have hnat : (UInt64.ofNat c.content.length).toNat = c.content.length := by
    rw [UInt64.toNat_ofNat']
    omega
  have hspan : (c.span s).stop = UInt64.ofNat c.content.length := by
    have : (Source.unbounded : UInt64).toNat = 2 ^ 64 - 1 := rfl
    rw [← UInt64.toNat_inj, Container.toNat_span_stop, hstop, hnat]
    omega
  have hwithin : s.Within c t := by
    refine ⟨hmode, ⟨number, hentry⟩, hdecoding, .inl hstop, ?_⟩
    rw [hspan, hstart, UInt64.lt_iff_toNat_lt, hnat]
    change 0 < c.content.length
    omega
  obtain ⟨shares, hrun, hpartitions⟩ := deliver_partitions hmarkers hscan plan hwithin
  have hascends := hpartitions.ascends
  have hrecords := hpartitions.records_eq
  rw [hstart, hspan] at hascends hrecords
  rw [hnat] at hrecords
  exact ⟨shares, hrun, hascends, hascends.pairwise, hrecords.trans c.recordsIn_all⟩

def birds : Assembly Bird where
  header := { marker := .counting }
  codec := .null
  decoding := Bird.decode
  portions := [[⟨1, "owl", "high", 2⟩, ⟨2, "jay", "low", 5⟩], [⟨3, "owl", "low", 1⟩]].map fun birds => {
    block := { recordCount := Int64.ofInt birds.length, payload := birds.flatMap Bird.encode }
    records := birds }

theorem birds_sound : birds.Sound where
  codec_found := rfl
  portions := by
    simp only [birds, List.mem_map, List.mem_cons, List.not_mem_nil, or_false]
    rintro p ⟨l, rfl | rfl, rfl⟩
    · exact ⟨by decide +kernel, .inr ⟨_, rfl, by decide +kernel⟩, by decide +kernel⟩
    · exact ⟨by decide +kernel, .inr ⟨_, rfl, by decide +kernel⟩, by decide +kernel⟩
  entries_lt := by decide
  length_lt := by decide +kernel

def birdsTree : FileTree where
  entries := [(["birds"], .file 0 birds.content)]
  made := 1

def birdsSource : Source := { Source.ofPattern "birds" with mode := .file }

/-- Bundles of thirty bytes, each read with splits in the middle, and what is given up cut into
single bytes. -/
def birdsPlan : Plan :=
  .cut 30 0 fun _ => .split (fun _ => [0x3fe0000000000000]) fun _ => .cut 1 1 fun _ => .read

theorem deliver_birds :
    ∃ shares : List (Share Bird), birdsPlan.deliver birdsTree 4 birdsSource = .ok shares ∧
      OffsetRange.Ascends 0 (shares.map Share.range) 88 ∧
      (shares.map Share.range).Pairwise (fun a b => a.start < b.start) ∧
      shares.flatMap Share.records =
        [⟨1, "owl", "high", 2⟩, ⟨2, "jay", "low", 5⟩, ⟨3, "owl", "low", 1⟩] := by
  have hmarkers : (birds.container birds_sound).MarkersEndBlocks := by decide +kernel
  have hscan : (0 : UInt64) < 4 := by decide
  have hentry : birdsTree.entry birdsSource.path = .ok (.file 0 birds.content) := rfl
  have hend : UInt64.ofNat birds.content.length = 88 := by decide +kernel
  rw [← hend]
  exact deliver_whole hmarkers hscan rfl rfl rfl hentry rfl birdsPlan

end Plan
end BlockContainer
