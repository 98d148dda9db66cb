import BlockContainer.Proofs.Reader.Concatenation
import BlockContainer.Proofs.Reader.Passage

/-! # What has been delivered at the end

The reader of a pattern that comes to its end has opened each of the files and gone through it
to its end, unless a call has failed. Behind a failure it may end early, or pass over the file
that could not be opened.
-/
namespace BlockContainer

variable {α : Type} [RecordType α] {content : Bytes} {t : FileTree}

structure FileTree.Holds (t : FileTree) (binding : SchemaBinding) (path : Bytes) (c : Container α) :
    Prop where
  entry : ∃ number, t.entry path = .ok (.file number c.content)
  decoding : RecordType.decoding binding c.header = .ok c.decoding

def FileTree.Covers (t : FileTree) (binding : SchemaBinding) (paths : List Bytes)
    (records : List α) : Prop :=
  ∃ containers, List.Forall₂ (t.Holds binding) paths containers ∧
    records = containers.flatMap Container.records

theorem FileTree.Covers.snoc {binding : SchemaBinding} {paths : List Bytes} {earlier : List α}
    (h : t.Covers binding paths earlier) {path : Bytes} {c : Container α}
    (hc : t.Holds binding path c) : t.Covers binding (paths ++ [path]) (earlier ++ c.records) := by
  obtain ⟨containers, hholds, rfl⟩ := h
  refine ⟨containers ++ [c], List.rel_append hholds (.cons hc .nil), ?_⟩
  rw [List.flatMap_append, List.flatMap_singleton]

namespace PatternReader

def Open (t : FileTree) (binding : SchemaBinding) (path : Bytes) (reader : ContainerReader α)
    (inFile : List α) : Prop :=
  ∃ number content, ∃ g : Guide α content, t.entry path = .ok (.file number content) ∧
    RecordType.decoding binding g.header = .ok g.decoding ∧
    ContainerReader.Midway g .record reader inFile

/-- What moving on in a file comes to that has been opened. -/
def Comes (t : FileTree) (binding : SchemaBinding) (path : Bytes) (inFile : List α) (found : Bool)
    (reader : ContainerReader α) : Prop :=
  if found then ∃ x, reader.current? = some x ∧ Open t binding path reader (inFile ++ [x])
  else ∃ c : Container α, t.Holds binding path c ∧ c.records = inFile

theorem comes_of_moves {binding : SchemaBinding} {path : Bytes} {number : Nat} {inFile : List α}
    {g : Guide α content} {found : Bool} {reader : ContainerReader α}
    (hentry : t.entry path = .ok (.file number content))
    (hdecoding : RecordType.decoding binding g.header = .ok g.decoding)
    (h : ContainerReader.Moves g inFile (.ok found reader)) :
    Comes t binding path inFile found reader := by
  cases found with
  | true =>
    obtain ⟨x, hx, hmidway⟩ := h
    exact ⟨x, hx, number, content, g, hentry, hdecoding, hmidway⟩
  | false =>
    obtain ⟨blocks, hpassed, rfl⟩ := h
    exact ⟨g.container hpassed, ⟨⟨number, hentry⟩, hdecoding⟩, rfl⟩

theorem Open.advance {binding : SchemaBinding} {path : Bytes} {reader reader' : ContainerReader α}
    {inFile : List α} (h : Open t binding path reader inFile) {found : Bool}
    (hrun : ContainerReader.advance reader = .ok found reader') :
    Comes t binding path inFile found reader' := by
  obtain ⟨number, content, g, hentry, hdecoding, hmidway⟩ := h
  have hmoves := hmidway.advance (by decide)
  rw [hrun] at hmoves
  exact comes_of_moves hentry hdecoding hmoves

def Addressable (t : FileTree) (paths : List Bytes) : Prop :=
  ∀ path ∈ paths, ∀ number content, t.entry path = .ok (.file number content) →
    content.length < 2 ^ 63

omit [RecordType α] in
/-- A reader of a whole file is new, and its range ends where the file does. -/
theorem ashore_whole (source : Source) (scanSize : UInt64) (hscan : 0 < scanSize) {path : Bytes}
    {number : Nat} (hentry : t.entry path = .ok (.file number content)) :
    let r : ContainerReader α :=
      .unstarted (source.subrange path 0 Source.unbounded) scanSize content.length
    ContainerReader.Ashore content t 0 r ∧ r.blocks.tracker.stop = r.blocks.fileSize := by
  refine ⟨⟨rfl, ⟨⟨number, hentry⟩, rfl, rfl, rfl, rfl⟩, UInt64.lt_iff_toNat_lt.1 hscan,
    rfl, rfl⟩, ?_⟩
  change max 0 (min Source.unbounded (UInt64.ofNat content.length)) = UInt64.ofNat content.length
  have hunbounded : (Source.unbounded : UInt64).toNat = 2 ^ 64 - 1 := rfl
  have hlt := (UInt64.ofNat content.length).toNat_lt
  rw [← UInt64.toNat_inj, toNat_max, toNat_min, hunbounded, UInt64.toNat_zero]
  omega

omit [RecordType α] in
/-- A reader can only be made of a file. -/
theorem file_of_create {source : Source} {scanSize : UInt64} {r : ContainerReader α}
    (h : ContainerReader.create t source scanSize = .ok r) :
    ∃ number content, t.entry source.path = .ok (.file number content) := by
  rw [ContainerReader.create, BlockReader.create, FileTree.fileSize] at h
  split at h
  · next number content hentry => exact ⟨number, content, hentry⟩
  · cases h
  · cases h

/-- A file that has been started has been opened and moved to its first record. -/
theorem opened_of_startFile {source : Source} {scanSize : UInt64} {path : Bytes}
    {reader : ContainerReader α} {found : Bool}
    (h : startFile t source scanSize path = .ok (reader, found)) :
    ∃ number content r, t.entry path = .ok (.file number content) ∧
      ContainerReader.begin t (.unstarted (source.subrange path 0 Source.unbounded) scanSize
        content.length) = .ok () r ∧ ContainerReader.advance r = .ok found reader := by
  unfold startFile at h
  cases hcreate : ContainerReader.create (α := α) t (source.subrange path 0 Source.unbounded)
      scanSize with
  | error e =>
    rw [hcreate] at h
    cases h
  | ok r =>
    obtain ⟨number, content, hentry⟩ := file_of_create hcreate
    cases hcreate.symm.trans (ContainerReader.create_of_entry hentry scanSize)
    rw [hcreate] at h
    simp only [bind, Except.bind] at h
    split at h
    · next hrun =>
      cases h
      rw [ContainerReader.start_eq_begin] at hrun
      obtain ⟨_, r, hbegin, hadvance⟩ := bind_eq_ok_iff.1 hrun
      exact ⟨number, content, r, hentry, hbegin, hadvance⟩
    · cases h

theorem startFile_comes {source : Source} {scanSize : UInt64} {path : Bytes}
    (hlength : ∀ number content, t.entry path = .ok (.file number content) →
      content.length < 2 ^ 63) (hscan : 0 < scanSize) {reader : ContainerReader α} {found : Bool}
    (h : startFile t source scanSize path = .ok (reader, found)) :
    Comes t source.binding path [] found reader := by
  obtain ⟨number, content, r, hentry, hbegin, hadvance⟩ := opened_of_startFile h
  obtain ⟨hashore, hwhole⟩ := ashore_whole (α := α) source scanSize hscan hentry
  obtain ⟨g, hmidway, hdecoding⟩ :=
    ContainerReader.midway_of_begin hashore (hlength number content hentry) hwhole hbegin
  have hmoves := hmidway.advance (by decide)
  rw [hadvance] at hmoves
  exact comes_of_moves hentry hdecoding hmoves

inductive Call where
  | start
  | advance
deriving DecidableEq, Repr

def perform (t : FileTree) : Call → Step α Bool
  | .start => start t
  | .advance => advance t

/-- The call comes before a reader is started, or starts it once more. -/
def Misplaced (r : PatternReader α) : Call → Prop
  | .start => r.started = true
  | .advance => r.started = false

def Call.misuse : Call → Misuse
  | start => .startedTwice .pattern
  | advance => .notStarted .pattern

theorem refused_of_misplaced {r : PatternReader α} {c : Call} (h : r.Misplaced c) :
    perform t c r = .error (.misuse c.misuse) r := by
  cases c with
  | start => simp [perform, start, show r.started = true from h, ensure, Call.misuse]
  | advance => simp [perform, advance, show r.started = false from h, ensure, Call.misuse]

omit [RecordType α] in
def taken (found : Bool) (r : PatternReader α) : List α :=
  if found then r.current.toOption.toList else []

/-- How far a reader has come that has returned these records. -/
inductive Reached (t : FileTree) (r : PatternReader α) : List α → Prop where
  | fresh (not_started : r.started = false) (not_done : r.done = false) : Reached t r []
  | amid {passed rest : List Bytes} {path : Bytes} {reader : ContainerReader α}
      {earlier inFile : List α} (started : r.started = true) (not_done : r.done = false)
      (glob : t.glob r.source.path = passed ++ path :: rest) (ahead : r.ahead = path :: rest)
      (present : r.reader? = some reader) (covers : t.Covers r.source.binding passed earlier)
      (opened : Open t r.source.binding path reader inFile) : Reached t r (earlier ++ inFile)
  | ended {records : List α} (started : r.started = true) (done : r.done = true)
      (covers : t.Covers r.source.binding (t.glob r.source.path) records) : Reached t r records

/-- What a call comes to that has not failed. -/
structure Gains (t : FileTree) (records : List α) (found : Bool) (r : PatternReader α) : Prop where
  reached : Reached t r (records ++ taken found r)
  covers : found = false → t.Covers r.source.binding (t.glob r.source.path) records

theorem gains_of_done {r : PatternReader α} {records : List α} (hstarted : r.started = true)
    (hdone : r.done = true) (h : t.Covers r.source.binding (t.glob r.source.path) records) :
    Gains t records false r where
  reached := .ended hstarted hdone (by simpa [taken] using h)
  covers _ := h

/-- A record that the present file has brought. -/
theorem gains_of_found {r : PatternReader α} {passed rest : List Bytes} {path : Bytes}
    {reader : ContainerReader α} {earlier inFile : List α} {x : α} (hstarted : r.started = true)
    (hdone : r.done = false) (hglob : t.glob r.source.path = passed ++ path :: rest)
    (hahead : r.ahead = path :: rest) (hreader : r.reader? = some reader)
    (hcovers : t.Covers r.source.binding passed earlier) (hx : reader.current? = some x)
    (hopen : Open t r.source.binding path reader (inFile ++ [x])) :
    Gains t (earlier ++ inFile) true r where
  reached := by
    have htaken : taken true r = [x] := by
      simp [taken, current, ContainerReader.current, hreader, hx, Except.toOption]
    rw [htaken, List.append_assoc]
    exact .amid hstarted hdone hglob hahead hreader hcovers hopen
  covers := by simp

/-- All files behind the reader have been read to their ends. -/
theorem openFrom_gains {passed files : List Bytes} {r : PatternReader α} {records : List α}
    (hstarted : r.started = true) (hdone : r.done = false)
    (hglob : t.glob r.source.path = passed ++ files) (hahead : r.ahead = files)
    (hcovers : t.Covers r.source.binding passed records)
    (hlength : Addressable t (t.glob r.source.path)) (hscan : 0 < r.scanSize) {found : Bool}
    {r' : PatternReader α} (h : openFrom t files r = .ok found r') : Gains t records found r' := by
  induction files generalizing passed r records with
  | nil =>
    cases h
    refine gains_of_done hstarted rfl ?_
    rw [List.append_nil] at hglob
    change t.Covers r.source.binding (t.glob r.source.path) records
    rwa [hglob]
  | cons path rest ih =>
    have hpath : path ∈ t.glob r.source.path := by simp [hglob]
    rw [openFrom, Runs.get_bind] at h
    obtain ⟨⟨reader, entered⟩, r₁, hcheck, h⟩ := bind_eq_ok_iff.1 h
    obtain ⟨hfile, rfl⟩ := check_eq_ok_iff.1 hcheck
    have hcomes := startFile_comes (hlength path hpath) hscan hfile
    cases entered with
    | true =>
      cases h
      obtain ⟨x, hx, hopen⟩ := hcomes
      rw [← List.append_nil records]
      exact gains_of_found hstarted hdone hglob hahead rfl hcovers hx hopen
    | false =>
      obtain ⟨c, hc, hnone⟩ := hcomes
      have hcovers := hcovers.snoc hc
      rw [hnone, List.append_nil] at hcovers
      refine ih (r := install reader false r) hstarted hdone ?_ ?_ hcovers hlength hscan h
      · rw [List.append_assoc]
        exact hglob
      · simp [install, hahead]

theorem start_gains {r : PatternReader α} (hstarted : r.started = false) (hdone : r.done = false)
    (hlength : Addressable t (t.glob r.source.path)) (hscan : 0 < r.scanSize) {found : Bool}
    {r' : PatternReader α} (h : start t r = .ok found r') : Gains t [] found r' := by
  have hfresh : (!r.started) = true := by rw [hstarted]; rfl
  rw [start, Runs.get_bind, Runs.ensure_bind hfresh, Runs.modify_bind] at h
  let files := t.glob r.source.path
  let r₀ : PatternReader α := { r with started := true, files, ahead := files }
  have hnone : t.Covers r.source.binding [] ([] : List α) := ⟨[], .nil, rfl⟩
  exact openFrom_gains (r := r₀) rfl hdone (List.nil_append files).symm rfl hnone hlength hscan h

theorem advance_gains {r : PatternReader α} {records : List α} (hreached : Reached t r records)
    (hlength : Addressable t (t.glob r.source.path)) (hscan : 0 < r.scanSize) {found : Bool}
    {r' : PatternReader α} (h : advance t r = .ok found r') : Gains t records found r' := by
  cases hreached with
  | fresh hnot => cases h.symm.trans (refused_of_misplaced (c := .advance) hnot)
  | ended hstarted hdone hcovers =>
    cases h.symm.trans (advance_of_over hstarted (.inl hdone))
    exact gains_of_done hstarted hdone hcovers
  | @amid passed rest path reader earlier inFile hstarted hdone hglob hahead hreader hcovers
      hopen =>
    rw [advance_of_reader hstarted hdone hreader] at h
    cases hrun : ContainerReader.advance reader with
    | error e reader' =>
      rw [hrun] at h
      cases h
    | ok entered reader' =>
      have hcomes := hopen.advance hrun
      rw [hrun] at h
      cases entered with
      | true =>
        cases h
        obtain ⟨x, hx, hopen⟩ := hcomes
        exact gains_of_found hstarted hdone hglob hahead rfl hcovers hx hopen
      | false =>
        obtain ⟨c, hc, hall⟩ := hcomes
        have hcovers := hcovers.snoc hc
        rw [hall] at hcovers
        have htail : r.ahead.tail = rest := congrArg List.tail hahead
        simp only [htail] at h
        refine openFrom_gains (r := pass { r with reader? := some reader' }) hstarted hdone ?_ htail
          hcovers hlength hscan h
        rw [List.append_assoc]
        exact hglob

def Reads (source : Source) (scanSize : UInt64) (r : PatternReader α) : Prop :=
  r.source = source ∧ r.scanSize = scanSize

theorem keeps_openFrom {source : Source} {scanSize : UInt64} (files : List Bytes) :
    Runs.Keeps (Reads (α := α) source scanSize) (openFrom t files) := by
  induction files with
  | nil => exact .bind (.modify fun _ h => h) fun _ => .pure false
  | cons path rest ih =>
    refine .get fun r h => ?_
    refine Runs.Keeps.bind (.check _) (fun opened => ?_) h
    refine .bind (.modify fun _ h => h) fun _ => ?_
    split
    · exact .pure true
    · exact ih

/-- No call changes what is to be read. -/
theorem keeps_perform {source : Source} {scanSize : UInt64} (c : Call) :
    Runs.Keeps (Reads (α := α) source scanSize) (perform t c) := by
  cases c with
  | start =>
    refine .get fun r h => ?_
    refine Runs.Keeps.bind (.ensure _ _) (fun _ => ?_) h
    exact .bind (.modify fun _ h => h) fun _ => .get fun r h => keeps_openFrom _ h
  | advance =>
    refine .get fun r h => ?_
    refine Runs.Keeps.bind (.ensure _ _) (fun _ => ?_) h
    split
    · refine .bind (.focus (Q := fun _ => True) (fun _ _ => trivial) (fun _ _ => trivial)
        fun _ _ h _ => h) fun entered => ?_
      split
      · exact .pure true
      · exact .bind (.modify fun _ h => h) fun _ => .get fun r h => keeps_openFrom _ h
    · exact .pure false

/-- The reader has returned these records, and no call has failed but such that were misplaced. -/
inductive Delivered (t : FileTree) (r₀ : PatternReader α) : List α → PatternReader α → Prop where
  | created : Delivered t r₀ [] r₀
  | called {records : List α} {r r' : PatternReader α} {c : Call} {found : Bool}
      (before : Delivered t r₀ records r) (runs : perform t c r = .ok found r') :
      Delivered t r₀ (records ++ taken found r') r'
  | refused {records : List α} {r r' : PatternReader α} {c : Call} {e : Error}
      (before : Delivered t r₀ records r) (misplaced : r.Misplaced c)
      (runs : perform t c r = .error e r') : Delivered t r₀ records r'

theorem gains_of_perform {r : PatternReader α} {records : List α} (hreached : Reached t r records)
    (hlength : Addressable t (t.glob r.source.path)) (hscan : 0 < r.scanSize) {c : Call}
    {found : Bool} {r' : PatternReader α} (h : perform t c r = .ok found r') :
    Gains t records found r' := by
  cases c with
  | advance => exact advance_gains hreached hlength hscan h
  | start =>
    by_cases hstarted : r.started = true
    · cases h.symm.trans (refused_of_misplaced (c := .start) hstarted)
    · cases hreached with
      | fresh hnot hdone => exact start_gains hnot hdone hlength hscan h
      | amid h' | ended h' => exact absurd h' hstarted

theorem reached_of_delivered {source : Source} {scanSize : UInt64} {records : List α}
    {r : PatternReader α} (hlength : Addressable t (t.glob source.path)) (hscan : 0 < scanSize)
    (h : Delivered t (create source scanSize) records r) :
    Reads source scanSize r ∧ Reached t r records := by
  induction h with
  | created => exact ⟨⟨rfl, rfl⟩, .fresh rfl rfl⟩
  | called before runs ih =>
    obtain ⟨⟨rfl, rfl⟩, hreached⟩ := ih
    refine ⟨(keeps_perform _).of_ok ⟨rfl, rfl⟩ runs, ?_⟩
    exact (gains_of_perform hreached hlength hscan runs).reached
  | refused before misplaced runs ih =>
    cases runs.symm.trans (refused_of_misplaced misplaced)
    exact ih

/-- From such a call on the reader delivers the other records and comes to the end. -/
theorem delivered_of_brings {file : Bytes → Container α} {r₀ r : PatternReader α}
    {earlier records : List α} (h : Delivered t r₀ earlier r) {c : Call}
    (hrun : ∃ found r', perform t c r = .ok found r' ∧ Brings t file records found r') :
    ∃ r₁ r₂ c, Delivered t r₀ (earlier ++ records) r₁ ∧ perform t c r₁ = .ok false r₂ := by
  obtain ⟨found, r', hrun, hbrings⟩ := hrun
  induction records generalizing earlier r c found r' with
  | nil =>
    cases found with
    | false => exact ⟨r, r', c, by rwa [List.append_nil], hrun⟩
    | true =>
      obtain ⟨x, rest, hrecords, -⟩ := hbrings
      cases hrecords
  | cons x rest ih =>
    cases found with
    | false => cases hbrings
    | true =>
      obtain ⟨y, rest', hrecords, hcurrent, hamid⟩ := hbrings
      cases hrecords
      have hcalled := h.called hrun
      have htaken : taken true r' = [x] := by simp [taken, hcurrent, Except.toOption]
      rw [htaken] at hcalled
      obtain ⟨found, r'', hadvance, hbrings⟩ := advance_brings hamid
      rw [List.append_cons]
      exact ih hcalled (c := .advance) found r'' hadvance hbrings

/-- Where all files are readable a reader comes to the end, with all records of the files. -/
theorem exhausts_of_readable {source : Source} {file : Bytes → Container α} (scanSize : UInt64)
    (hfiles : ∀ path ∈ t.glob source.path, t.Readable source.binding path (file path)) :
    ∃ r₁ r₂ c, Delivered t (create source scanSize)
        ((t.glob source.path).flatMap fun path => (file path).records) r₁ ∧
      perform t c r₁ = .ok false r₂ :=
  delivered_of_brings (c := .start) .created (start_brings rfl rfl hfiles)

theorem addressable_of_readable {binding : SchemaBinding} {file : Bytes → Container α}
    {paths : List Bytes} (h : ∀ path ∈ paths, t.Readable binding path (file path)) :
    Addressable t paths := by
  intro path hpath number content hentry
  obtain ⟨number', hcontainer⟩ := (h path hpath).entry
  cases hentry.symm.trans hcontainer
  exact (file path).length_lt

/-- A reader that says that there is no further record has returned the records of all files of
the pattern, each of them opened and read to its end, unless a call had failed before. -/
theorem covers_of_exhausted {source : Source} {o : Options} {records : List α}
    {r r' : PatternReader α} {c : Call} (hlength : Addressable t (t.glob source.path))
    (h : Delivered t (create source o.scanSize) records r) (hrun : perform t c r = .ok false r') :
    t.Covers source.binding (t.glob source.path) records := by
  obtain ⟨⟨hsource, hscan⟩, hreached⟩ := reached_of_delivered hlength o.scanSize_pos h
  have hkept := (keeps_perform c).of_ok ⟨hsource, hscan⟩ hrun
  have hpos : 0 < r.scanSize := hscan ▸ o.scanSize_pos
  rw [← hsource] at hlength
  have hcovers := (gains_of_perform hreached hlength hpos hrun).covers rfl
  rwa [hkept.1] at hcovers

/-- Two files with records and one without. -/
theorem covers_of_exhausted_nests : ∃ (r₁ r₂ : PatternReader Bird) (c : Call),
    let source := Source.ofPattern "?"
    let flock : List Bird := [⟨1, "owl", "high", 2⟩, ⟨2, "jay", "low", 5⟩, ⟨3, "owl", "low", 1⟩]
    Addressable Source.nests (Source.nests.glob source.path) ∧
      Delivered Source.nests (create source 4096) (flock ++ flock) r₁ ∧
      perform Source.nests c r₁ = .ok false r₂ ∧
      Source.nests.Covers source.binding (Source.nests.glob source.path) (flock ++ flock) := by
  have hfiles : ∀ path ∈ Source.nests.glob (Source.ofPattern "?").path,
      Source.nests.Readable (Source.ofPattern "?").binding path (Source.nestsFile path) :=
    fun _ => Source.readable_nests
  obtain ⟨r₁, r₂, c, hdelivered, hrun⟩ := exhausts_of_readable 4096 hfiles
  have hrecords : (Source.nests.glob (Source.ofPattern "?").path).flatMap
      (fun path => (Source.nestsFile path).records) = _ := congrArg _ Source.glob_nests
  rw [hrecords] at hdelivered
  have hlength := addressable_of_readable hfiles
  exact ⟨r₁, r₂, c, hlength, hdelivered, hrun,
    covers_of_exhausted (o := .standard) hlength hdelivered hrun⟩

def shed : FileTree where
  entries := [(["a"], .file 0 [0]), (["b"], .file 1 Plan.birds.content)]
  made := 2

def barn : FileTree where
  entries := [(["a"], .file 0 Source.nest.content), (["b"], .file 1 [0]),
    (["c"], .file 2 Plan.birds.content)]
  made := 3

/-- A single zero byte is no container. -/
theorem not_holds_zero {binding : SchemaBinding} {path : Bytes} {number : Nat}
    (h : t.entry path = .ok (.file number [0])) (c : Container α) : ¬t.Holds binding path c := by
  intro hc
  obtain ⟨number', hcontent⟩ := hc.entry
  obtain ⟨-, hzero⟩ := FileEntry.file.inj (Except.ok.inj (h.symm.trans hcontent))
  obtain ⟨s, hread⟩ := c.header_read
  rw [← hzero] at hread
  have hfound := congrArg Option.isSome (Runs.value?_of_ok hread)
  rw [Option.isSome_some] at hfound
  exact absurd hfound (by decide +kernel)

theorem start_of_glob {r : PatternReader α} {files : List Bytes} (hstarted : r.started = false)
    (hglob : t.glob r.source.path = files) :
    start t r = openFrom t files { r with started := true, files, ahead := files } := by
  have hfresh : (!r.started) = true := by rw [hstarted]; rfl
  subst hglob
  rw [start, Runs.get_bind, Runs.ensure_bind hfresh, Runs.modify_bind]
  rfl

/-- A call behind one that has failed ends the reading or passes over the file that could not be
opened. -/
theorem passed_over_unreadable :
    let source := Source.ofPattern "?"
    (∃ r : PatternReader Bird, shed.glob source.path = [("a" : Bytes), "b"] ∧
      start shed (create source 4096) = .error (.format .magicMissing) r ∧
      advance shed r = .ok false r ∧
      ¬shed.Covers source.binding (shed.glob source.path) ([] : List Bird)) ∧
    ∃ r r' : PatternReader Bird, barn.glob source.path = [("a" : Bytes), "b", "c"] ∧
      start barn (create source 4096) = .error (.format .magicMissing) r ∧
      advance barn r = .ok true r' ∧ r'.ahead = ["c"] ∧
      taken true r' = [⟨1, "owl", "high", 2⟩] := by
  intro source
  have hshed : shed.glob source.path = [("a" : Bytes), "b"] :=
    FileTree.glob_of_expand (by decide +kernel) (by decide)
  have hbarn : barn.glob source.path = [("a" : Bytes), "b", "c"] :=
    FileTree.glob_of_expand (by decide +kernel) (by decide)
  refine ⟨⟨_, hshed, (start_of_glob rfl hshed).trans (Runs.eq_error_iff.2 ?_), ?_, ?_⟩,
    _, _, hbarn, (start_of_glob rfl hbarn).trans (Runs.eq_error_iff.2 ?_),
    Runs.eq_ok_iff.2 ?_, ?_, ?_⟩
  · decide +kernel
  · exact advance_of_over (by decide +kernel) (.inr (by decide +kernel))
  · rw [hshed]
    rintro ⟨containers, hholds, -⟩
    cases hholds with
    | cons ha _ =>
      have hentry : shed.entry "a" = .ok (.file 0 [0]) := rfl
      exact not_holds_zero hentry _ ha
  iterate 4 decide +kernel

end PatternReader
end BlockContainer
