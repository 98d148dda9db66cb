import BlockContainer.Proofs.Container.Partition
import BlockContainer.Proofs.Container.Returning
import BlockContainer.Reader.Basic
import Mathlib.Data.List.Forall2

/-! # A pattern is read as its files one after another

The reader of a pattern goes from file to file and passes those that hold no record. The
bundles of a pattern are those of its files. Whichever way is taken, the records are those of
the files in the order of their names.
-/
namespace BlockContainer

variable {α : Type} [RecordType α] {t : FileTree} {file : Bytes → Container α}

omit [RecordType α] in
/-- Paths that are found in the order of their bytes. -/
theorem FileTree.glob_of_expand {pattern : Bytes} {paths : List Bytes}
    (h : Glob.expand t false false (untilZero pattern) = paths)
    (hsorted : paths.Pairwise fun a b => decide (a ≤ b) = true) : t.glob pattern = paths := by
  rw [glob, h]
  exact List.mergeSort_of_pairwise hsorted

/-- The file at the path is a container that the binding can read, and its blocks can be found
from anywhere. -/
structure FileTree.Readable (t : FileTree) (binding : SchemaBinding) (path : Bytes)
    (c : Container α) : Prop where
  entry : ∃ number, t.entry path = .ok (.file number c.content)
  markers : c.MarkersEndBlocks
  decoding : RecordType.decoding binding c.header = .ok c.decoding

namespace ContainerReader

variable {result : EStateM.Result Error (ContainerReader α) Bool} {x : α} {rest : List α}

omit [RecordType α] in
theorem Returns.finished (h : Returns result []) : ∃ r, result = .ok false r := by
  cases result with
  | error e r => exact absurd h id
  | ok found r =>
    cases found with
    | true => exact absurd h id
    | false => exact ⟨r, rfl⟩

omit [RecordType α] in
theorem Returns.record (h : Returns result (x :: rest)) :
    ∃ r, result = .ok true r ∧ r.current = .ok x ∧ Returns (advance r) rest := by
  cases result with
  | error e r => exact absurd h id
  | ok found r =>
    cases found with
    | false => exact absurd h id
    | true => exact ⟨r, rfl, h⟩

end ContainerReader

namespace Reader

/-- From this call on the reader returns just these records. -/
inductive Returns (t : FileTree) : EStateM.Result Error (Reader α) Bool → List α → Prop where
  | finished (r : Reader α) : Returns t (.ok false r) []
  | record {r : Reader α} {x : α} {rest : List α} (current : r.current = .ok x)
      (further : Returns t (advance t r) rest) : Returns t (.ok true r) (x :: rest)

theorem Returns.unique {result : EStateM.Result Error (Reader α) Bool} {l m : List α}
    (hl : Returns t result l) (hm : Returns t result m) : l = m := by
  induction hl generalizing m with
  | finished r =>
    cases hm
    rfl
  | record hx _ ih =>
    cases hm with
    | record hy hm => rw [Except.ok.inj (hx.symm.trans hy), ih hm]

omit [RecordType α] in
theorem step_container {β : Type} {m : ContainerReader.Step α β} {reader reader' : ContainerReader α}
    {b : β} (h : m reader = .ok b reader') (onPattern : PatternReader.Step α β) :
    step m onPattern (.container reader) = .ok b (.container reader') := by
  simp only [step, h]

omit [RecordType α] in
theorem step_pattern {β : Type} {m : PatternReader.Step α β} {reader reader' : PatternReader α}
    {b : β} (h : m reader = .ok b reader') (onContainer : ContainerReader.Step α β) :
    step onContainer m (.pattern reader) = .ok b (.pattern reader') := by
  simp only [step, h]

theorem returns_of_container {m : ContainerReader.Step α Bool} {reader : ContainerReader α}
    {records : List α} (h : ContainerReader.Returns (m reader) records)
    (onPattern : PatternReader.Step α Bool) :
    Returns t (step m onPattern (.container reader)) records := by
  induction records generalizing m reader onPattern with
  | nil =>
    obtain ⟨r, hrun⟩ := h.finished
    rw [step_container hrun]
    exact .finished _
  | cons x rest ih =>
    obtain ⟨r, hrun, hcurrent, hrest⟩ := h.record
    rw [step_container hrun]
    exact .record hcurrent (ih hrest (PatternReader.advance t))

end Reader

def Source.Yields (t : FileTree) (o : Options) (s : Source) (records : List α) : Prop :=
  ∃ r, Reader.create t s o = .ok r ∧ Reader.Returns t (Reader.start t r) records

theorem Source.Yields.unique {o : Options} {s : Source} {l m : List α} (hl : s.Yields t o l)
    (hm : s.Yields t o m) : l = m := by
  obtain ⟨r, hcreate, hl⟩ := hl
  obtain ⟨r', hcreate', hm⟩ := hm
  cases hcreate.symm.trans hcreate'
  exact hl.unique hm

/-- A reader of a part of a container returns the records of the part. -/
theorem Source.Within.yields {c : Container α} {s : Source} (h : s.Within c t)
    (hmarkers : c.MarkersEndBlocks) (o : Options) : s.Yields t o (c.recordsOf s) := by
  have hscan := UInt64.lt_iff_toNat_lt.1 o.scanSize_pos
  obtain ⟨r, hcreate, hunopened, -, -, hrange⟩ :=
    ContainerReader.create_of_within h (.inr ⟨hmarkers, hscan⟩)
  refine ⟨.container r, ?_, Reader.returns_of_container ?_ _⟩
  · unfold Reader.create
    rw [h.validate]
    simp only [h.mode_eq, hcreate]
    rfl
  · have hreturns := ContainerReader.returns_start hunopened
    change ContainerReader.Returns _ (c.recordsIn r.range.start.toNat r.range.stop.toNat) at hreturns
    rwa [hrange] at hreturns

theorem FileTree.Readable.within {binding : SchemaBinding} {path : Bytes} {c : Container α}
    (h : t.Readable binding path c) {s : Source} (hbinding : s.binding = binding) :
    (s.subrange path 0 Source.unbounded).Within c t ∧
      c.recordsOf (s.subrange path 0 Source.unbounded) = c.records := by
  subst hbinding
  exact ⟨Container.within_whole rfl rfl rfl h.entry h.decoding, Container.recordsOf_whole rfl rfl⟩

namespace PatternReader

/-- The reader is in the midst of a file. The records to come are the rest of it and those of
the files behind it. -/
structure Amid (t : FileTree) (file : Bytes → Container α) (r : PatternReader α)
    (records : List α) : Prop where
  started : r.started = true
  not_done : r.done = false
  present : ∃ path rest reader inFile, r.ahead = path :: rest ∧ r.reader? = some reader ∧
    ContainerReader.Owes (file path) .record reader inFile ∧
    (∀ path ∈ rest, t.Readable r.source.binding path (file path)) ∧
    records = inFile ++ rest.flatMap fun path => (file path).records

def Brings (t : FileTree) (file : Bytes → Container α) (records : List α) :
    Bool → PatternReader α → Prop
  | false, _ => records = []
  | true, r => ∃ x rest, records = x :: rest ∧ r.current = .ok x ∧ Amid t file r rest

/-- A reader of a file that is started stands at the first record, if there is one. -/
theorem startFile_of_readable {source : Source} {path : Bytes} {c : Container α}
    (h : t.Readable source.binding path c) (scanSize : UInt64) :
    ∃ reader found, startFile t source scanSize path = .ok (reader, found) ∧
      if found then ∃ x rest, c.records = x :: rest ∧ reader.current = .ok x ∧
        ContainerReader.Owes c .record reader rest
      else c.records = [] := by
  obtain ⟨hwithin, hrecords⟩ := h.within rfl
  obtain ⟨r, hcreate, hunopened, -, -, hrange⟩ : ∃ r, ContainerReader.create t _ scanSize = .ok r ∧ _ :=
    ContainerReader.create_of_within hwithin (.inl rfl)
  obtain ⟨found, reader, hstart, hmoved⟩ := ContainerReader.start_of_unopened hunopened
  change ContainerReader.Moved c r (c.recordsIn r.range.start.toNat r.range.stop.toNat) _ _ at hmoved
  rw [hrange] at hmoved
  change ContainerReader.Moved c r (c.recordsOf _) _ _ at hmoved
  rw [hrecords] at hmoved
  refine ⟨reader, found, ?_, ?_⟩
  · unfold startFile
    simp only [bind, Except.bind, hcreate, hstart]
  · cases found with
    | true => exact hmoved.first
    | false => exact hmoved.finished rfl

/-- A file that has been started is taken over, and passed at once if it holds no record. -/
theorem openFrom_of_started {path : Bytes} {rest : List Bytes} {r : PatternReader α}
    {reader : ContainerReader α} {found : Bool}
    (h : startFile t r.source r.scanSize path = .ok (reader, found)) :
    openFrom t (path :: rest) r =
      (if found then pure true else openFrom t rest) (install reader found r) := by
  rw [openFrom, Runs.get_bind]
  exact Runs.check_bind h _ _

/-- Files without records are passed, up to one that holds a record. -/
theorem openFrom_brings {files : List Bytes} {r : PatternReader α} (hstarted : r.started = true)
    (hdone : r.done = false) (hahead : r.ahead = files)
    (hfiles : ∀ path ∈ files, t.Readable r.source.binding path (file path)) :
    ∃ found r', openFrom t files r = .ok found r' ∧
      Brings t file (files.flatMap fun path => (file path).records) found r' := by
  induction files generalizing r with
  | nil => exact ⟨false, r.finish, rfl, rfl⟩
  | cons path rest ih =>
    obtain ⟨reader, found, hstart, hfound⟩ := startFile_of_readable (hfiles path (by simp)) r.scanSize
    have hrest : ∀ path ∈ rest, t.Readable r.source.binding path (file path) :=
      fun path hpath => hfiles path (by simp [hpath])
    rw [openFrom_of_started hstart, List.flatMap_cons]
    cases found with
    | true =>
      obtain ⟨x, inFile, hrecords, hcurrent, howes⟩ := hfound
      refine ⟨true, install reader true r, rfl, x, _, ?_, hcurrent, hstarted, hdone,
        path, rest, reader, inFile, hahead, rfl, howes, hrest, rfl⟩
      rw [hrecords, List.cons_append]
    | false =>
      have hnone : (file path).records = [] := hfound
      have htail : (install reader false r).ahead = rest := by simp [install, hahead]
      rw [hnone, List.nil_append]
      exact ih (r := install reader false r) hstarted hdone htail hrest

theorem start_brings {r : PatternReader α} (hstarted : r.started = false) (hdone : r.done = false)
    (hfiles : ∀ path ∈ t.glob r.source.path, t.Readable r.source.binding path (file path)) :
    ∃ found r', start t r = .ok found r' ∧
      Brings t file ((t.glob r.source.path).flatMap fun path => (file path).records) found r' := by
  have hfresh : (!r.started) = true := by rw [hstarted]; rfl
  unfold start
  rw [Runs.get_bind, Runs.ensure_bind hfresh, Runs.modify_bind]
  exact openFrom_brings rfl hdone rfl hfiles

omit [RecordType α] in
theorem over_or_open (r : PatternReader α) :
    (r.done = true ∨ r.reader?.isNone) ∨ r.done = false ∧ ∃ reader, r.reader? = some reader := by
  cases r.done with
  | true => exact .inl (.inl rfl)
  | false =>
    cases r.reader? with
    | none => exact .inl (.inr rfl)
    | some reader => exact .inr ⟨rfl, reader, rfl⟩

/-- Where all is done, or no file is open, there is nothing to move on. -/
theorem advance_of_over {r : PatternReader α} (hstarted : r.started = true)
    (h : r.done = true ∨ r.reader?.isNone) : advance t r = .ok false r := by
  rw [advance, Runs.get_bind, Runs.ensure_bind hstarted]
  rcases h with hdone | hnone
  · rw [hdone]
    rfl
  · rw [Option.isNone_iff_eq_none.1 hnone]
    cases r.done <;> rfl

/-- What moving on comes to with a file open. -/
theorem advance_of_reader {r : PatternReader α} {reader : ContainerReader α}
    (hstarted : r.started = true) (hdone : r.done = false) (hreader : r.reader? = some reader) :
    advance t r = match ContainerReader.advance reader with
      | .error e reader => .error e { r with reader? := some reader }
      | .ok true reader => .ok true { r with reader? := some reader }
      | .ok false reader => openFrom t r.ahead.tail (pass { r with reader? := some reader }) := by
  rw [advance, Runs.get_bind, Runs.ensure_bind hstarted]
  obtain ⟨source, scanSize, files, ahead, reader?, started, done⟩ := r
  obtain rfl : done = false := hdone
  obtain rfl : reader? = some reader := hreader
  cases hadvance : ContainerReader.advance reader with
  | error e reader => exact Runs.bind_of_error (Runs.focus_of_error hadvance)
  | ok found reader =>
    refine (Runs.bind_of_ok (Runs.focus_of_ok hadvance)).trans ?_
    cases found with
    | true => rfl
    | false => rfl

theorem advance_brings {r : PatternReader α} {records : List α} (h : Amid t file r records) :
    ∃ found r', advance t r = .ok found r' ∧ Brings t file records found r' := by
  obtain ⟨hstarted, hdone, path, rest, reader, inFile, hahead, hreader, howes, hrest, hrecords⟩ := h
  obtain ⟨found, reader', hadvance, hmoved⟩ := ContainerReader.advance_of_owes (by decide) howes
  rw [advance_of_reader hstarted hdone hreader, hadvance]
  subst hrecords
  cases found with
  | true =>
    obtain ⟨x, inFile', hrecords, hcurrent, howes'⟩ := hmoved.first
    refine ⟨true, _, rfl, x, _, ?_, hcurrent, hstarted, hdone, path, rest, reader', inFile',
      hahead, rfl, howes', hrest, rfl⟩
    rw [hrecords, List.cons_append]
  | false =>
    have hnone : inFile = [] := hmoved.finished rfl
    rw [hnone, List.nil_append]
    have htail : r.ahead.tail = rest := congrArg List.tail hahead
    simp only [htail]
    exact openFrom_brings (r := pass { r with reader? := some reader' }) hstarted hdone htail hrest

/-- Further calls return the other records. -/
theorem returns_of_brings {m : Step α Bool} {r : PatternReader α} {records : List α}
    (h : ∃ found r', m r = .ok found r' ∧ Brings t file records found r')
    (onContainer : ContainerReader.Step α Bool) :
    Reader.Returns t (Reader.step onContainer m (.pattern r)) records := by
  induction records generalizing m r onContainer with
  | nil =>
    obtain ⟨found, r', hrun, hbrings⟩ := h
    cases found with
    | true =>
      obtain ⟨x, rest, hrecords, -⟩ := hbrings
      cases hrecords
    | false =>
      rw [Reader.step_pattern hrun]
      exact .finished _
  | cons record records ih =>
    obtain ⟨found, r', hrun, hbrings⟩ := h
    cases found with
    | false => cases hbrings
    | true =>
      obtain ⟨x, rest, hrecords, hcurrent, hamid⟩ := hbrings
      cases hrecords
      rw [Reader.step_pattern hrun]
      exact .record hcurrent (ih (advance_brings hamid) ContainerReader.advance)

end PatternReader

namespace Source

variable {s : Source}

theorem yields_pattern (hmode : s.mode = .pattern) (hvalid : s.validate = .ok ())
    (hfiles : ∀ path ∈ t.glob s.path, t.Readable s.binding path (file path)) (o : Options) :
    s.Yields t o ((t.glob s.path).flatMap fun path => (file path).records) := by
  refine ⟨.pattern (.create s o.scanSize), ?_,
    PatternReader.returns_of_brings (PatternReader.start_brings rfl rfl hfiles) _⟩
  unfold Reader.create
  rw [hvalid]
  simp only [hmode]
  rfl

/-- The bundles of a whole container return its records one after another. -/
theorem bundles_of_readable {path : Bytes} {c : Container α} (h : t.Readable s.binding path c)
    (desired : UInt64) :
    ∃ bundles, (s.subrange path 0 unbounded).bundles t desired = .ok bundles ∧
      (∀ b ∈ bundles, ∀ o, b.Yields t o (c.recordsOf b)) ∧
      bundles.flatMap c.recordsOf = c.records := by
  obtain ⟨bundles, hrun, hbundles, hrecords⟩ := bundles_of_whole h.entry h.decoding desired
  exact ⟨bundles, hrun, fun b hb o => (hbundles b hb).1.yields h.markers o, hrecords⟩

/-- What is cut one by one returns, one part after another, what the parts return. -/
theorem yields_of_mapM {β : Type} {cut : β → Except Error (List Source)} {records : β → List α}
    {l : List β} (h : ∀ x ∈ l, ∃ bundles parts, cut x = .ok bundles ∧
      List.Forall₂ (fun b part => ∀ o, Yields t o b part) bundles parts ∧
      parts.flatten = records x) :
    ∃ cuts parts, l.mapM cut = .ok cuts ∧
      List.Forall₂ (fun b part => ∀ o, Yields t o b part) cuts.flatten parts ∧
      parts.flatten = l.flatMap records := by
  induction l with
  | nil => exact ⟨[], [], rfl, .nil, rfl⟩
  | cons x rest ih =>
    obtain ⟨bundles, parts, hcut, hyields, hparts⟩ := h x (by simp)
    obtain ⟨cuts, more, hrest, hmore, hflat⟩ := ih fun y hy => h y (by simp [hy])
    refine ⟨bundles :: cuts, parts ++ more, ?_, ?_, ?_⟩
    · simp only [List.mapM_cons, hcut, hrest]
      rfl
    · exact List.rel_append hyields hmore
    · rw [List.flatten_append, hparts, hflat, List.flatMap_cons]

/-- Reading a pattern returns the records of the files it matches, one file after another, and
so does reading its bundles one after another, of whatever size they are and whatever the
options they are read with. -/
theorem yields_concatenation {t : FileTree} {s : Source} {file : Bytes → Container α}
    (hmode : s.mode = .pattern) (hvalid : s.validate = .ok ())
    (hfiles : ∀ path ∈ t.glob s.path, t.Readable s.binding path (file path)) :
    (∀ path ∈ t.glob s.path, ∀ o,
      (s.subrange path 0 unbounded).Yields t o (file path).records) ∧
    (∀ o, s.Yields t o ((t.glob s.path).flatMap fun path => (file path).records)) ∧
    ∀ desired, ∃ bundles parts, s.bundles t desired = .ok bundles ∧
      List.Forall₂ (fun b part => ∀ o, Yields t o b part) bundles parts ∧
      parts.flatten = (t.glob s.path).flatMap fun path => (file path).records := by
  refine ⟨fun path hpath o => ?_, yields_pattern hmode hvalid hfiles, fun desired => ?_⟩
  · obtain ⟨hwithin, hrecords⟩ := (hfiles path hpath).within rfl
    rw [← hrecords]
    exact hwithin.yields (hfiles path hpath).markers o
  · obtain ⟨cuts, parts, hrun, hyields, hparts⟩ := yields_of_mapM fun path hpath => by
      obtain ⟨bundles, hcut, hall, hflat⟩ := bundles_of_readable (hfiles path hpath) desired
      exact ⟨bundles, bundles.map _, hcut, List.forall₂_map_right_iff.2 (List.forall₂_same.2 hall), hflat⟩
    exact ⟨cuts.flatten, parts, bundles_of_pattern hmode hvalid hrun, hyields, hparts⟩

def nest : Assembly Bird := { Plan.birds with portions := [] }

theorem nest_sound : nest.Sound where
  codec_found := rfl
  portions := by simp [nest]
  entries_lt := by decide
  length_lt := by decide +kernel

def nests : FileTree where
  entries := [(["a"], .file 0 Plan.birds.content), (["b"], .file 1 nest.content),
    (["c"], .file 2 Plan.birds.content)]
  made := 3

def nestsFile (path : Bytes) : Container Bird :=
  if path = "b" then nest.container nest_sound else Plan.birds.container Plan.birds_sound

theorem glob_nests : nests.glob "?" = [("a" : Bytes), "b", "c"] :=
  FileTree.glob_of_expand (by decide +kernel) (by decide)

theorem readable_nests {path : Bytes} (hpath : path ∈ nests.glob "?") :
    nests.Readable .ofFile path (nestsFile path) := by
  have hbirds : (Plan.birds.container Plan.birds_sound).MarkersEndBlocks := by decide +kernel
  have hnest : (nest.container nest_sound).MarkersEndBlocks := by decide +kernel
  rw [glob_nests] at hpath
  simp only [List.mem_cons, List.not_mem_nil, or_false] at hpath
  rcases hpath with rfl | rfl | rfl
  · exact ⟨⟨0, rfl⟩, hbirds, rfl⟩
  · exact ⟨⟨1, rfl⟩, hnest, rfl⟩
  · exact ⟨⟨2, rfl⟩, hbirds, rfl⟩

theorem yields_concatenation_nests :
    let s := (ofPattern "?").withMinBundleSize 0
    let flock : List Bird := [⟨1, "owl", "high", 2⟩, ⟨2, "jay", "low", 5⟩, ⟨3, "owl", "low", 1⟩]
    nests.glob s.path = [("a" : Bytes), "b", "c"] ∧ (∀ o, s.Yields nests o (flock ++ flock)) ∧
      ∃ bundles parts, s.bundles nests 30 = .ok bundles ∧
        List.Forall₂ (fun b part => ∀ o, Yields nests o b part) bundles parts ∧
        parts.flatten = flock ++ flock := by
  intro s flock
  have hglob : nests.glob s.path = [("a" : Bytes), "b", "c"] := glob_nests
  have hfiles : ∀ path ∈ nests.glob s.path, nests.Readable s.binding path (nestsFile path) :=
    fun _ => readable_nests
  obtain ⟨-, hpattern, hbundles⟩ := yields_concatenation rfl rfl hfiles
  obtain ⟨bundles, parts, hrun, hyields, hflat⟩ := hbundles 30
  have hrecords : (nests.glob s.path).flatMap (fun path => (nestsFile path).records) =
      flock ++ flock := by
    rw [hglob]
    rfl
  rw [hrecords] at hpattern hflat
  exact ⟨hglob, hpattern, bundles, parts, hrun, hyields, hflat⟩

end Source
end BlockContainer
