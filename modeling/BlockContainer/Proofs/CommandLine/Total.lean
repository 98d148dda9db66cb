import BlockContainer.CommandLine.Run
import BlockContainer.Proofs.Pool.Accounting
import BlockContainer.Proofs.Writer.RoundTrip

/-! # The total that the command line reports

The inputs are patterns. Each is cut into bundles that cover the files it matches, and
whatever the workers and the controller of the pool do with the bundles, the records that
are tallied in the end are those of the files, each file counted once for every input that
matches it.
-/
namespace BlockContainer

variable {α : Type} [RecordType α]

/-- The file at the path is a container whose blocks can be found from anywhere. -/
structure FileTree.Contains (t : FileTree) (path : Bytes) (c : Container α) : Prop where
  entry : ∃ number, t.entry path = .ok (.file number c.content)
  markers : c.MarkersEndBlocks
  decoding : RecordType.decoding .ofFile c.header = .ok c.decoding

namespace Source

variable {t : FileTree} {file : Bytes → Container α}

/-- The sources are of known files and cover so many records in all. -/
structure Cover (t : FileTree) (file : Bytes → Container α) (sources : List Source) (count : Nat) :
    Prop where
  known : ∀ s ∈ sources, s.Known t file
  count_eq : (sources.map (weight file)).sum = count

theorem Cover.append {l m : List Source} {i j : Nat} (hl : Cover t file l i)
    (hm : Cover t file m j) : Cover t file (l ++ m) (i + j) where
  known s hs := (List.mem_append.1 hs).elim (hl.known s) (hm.known s)
  count_eq := by rw [List.map_append, List.sum_append, hl.count_eq, hm.count_eq]

/-- What is cut one by one covers in all what its parts cover. -/
theorem Cover.mapM {β : Type} {cut : β → Except Error (List Source)} {count : β → Nat} {l : List β}
    (h : ∀ x ∈ l, ∃ sources, cut x = .ok sources ∧ Cover t file sources (count x)) :
    ∃ parts, l.mapM cut = .ok parts ∧ Cover t file parts.flatten (l.map count).sum := by
  induction l with
  | nil => exact ⟨[], rfl, by simp, rfl⟩
  | cons x rest ih =>
    obtain ⟨sources, hcut, hcover⟩ := h x (by simp)
    obtain ⟨parts, hrest, hcovers⟩ := ih fun y hy => h y (by simp [hy])
    refine ⟨sources :: parts, ?_, ?_⟩
    · simp only [List.mapM_cons, hcut, hrest]
      rfl
    · rw [List.flatten_cons, List.map_cons, List.sum_cons]
      exact hcover.append hcovers

theorem cover_file {path : Bytes} (h : t.Contains path (file path)) (s : Source)
    (hbinding : s.binding = .ofFile) (desired : UInt64) :
    ∃ sources, (s.subrange path 0 unbounded).bundles t desired = .ok sources ∧
      Cover t file sources (file path).records.length := by
  obtain ⟨sources, hrun, hbundles, hrecords⟩ :=
    bundles_of_whole (s := s) h.entry (by rw [hbinding]; exact h.decoding) desired
  refine ⟨sources, hrun, fun b hb => ?_, ?_⟩
  · obtain ⟨hb, hpath⟩ := hbundles b hb
    have hfile : file b.path = file path := congrArg file hpath
    exact ⟨by rw [hfile]; exact hb, by rw [hfile]; exact h.markers⟩
  · have hweight : ∀ b ∈ sources, b.weight file = ((file path).recordsOf b).length := by
      intro b hb
      rw [weight, (hbundles b hb).2]
    rw [List.map_congr_left hweight, ← hrecords, List.length_flatMap]

/-- The bundles of a pattern cover the files that it matches. -/
theorem cover_pattern {pattern : Bytes} (hpattern : pattern ≠ [])
    (h : ∀ path ∈ t.glob pattern, t.Contains path (file path)) (least desired : UInt64) :
    ∃ sources, ((ofPattern pattern).withMinBundleSize least).bundles t desired = .ok sources ∧
      Cover t file sources (((t.glob pattern).map fun path => (file path).records.length).sum) := by
  obtain ⟨parts, hcut, hcover⟩ := Cover.mapM fun path hpath =>
    cover_file (h path hpath) ((ofPattern pattern).withMinBundleSize least) rfl desired
  have hvalid : ((ofPattern pattern).withMinBundleSize least).validate = .ok () := by
    simp [validate, ofPattern, withMinBundleSize, hpattern]
  exact ⟨parts.flatten, bundles_of_pattern rfl hvalid hcut, hcover⟩

end Source

namespace CommandLine

theorem mapM_ne_ok {β γ : Type} {f : β → Except Error γ} {l : List β} {x : β} (hx : x ∈ l)
    {e : Error} (h : f x = .error e) (ys : List γ) : l.mapM f ≠ .ok ys := by
  induction l generalizing ys with
  | nil => cases hx
  | cons y rest ih =>
    intro hrun
    rw [List.mapM_cons] at hrun
    rcases List.mem_cons.1 hx with rfl | hx
    · rw [h] at hrun
      cases hrun
    · cases hy : f y with
      | error e => simp [hy, bind, Except.bind] at hrun
      | ok z =>
        cases hrest : rest.mapM f with
        | error e => simp [hy, hrest, bind, Except.bind] at hrun
        | ok zs => exact ih hx zs hrest

theorem named_of_bundles {t : FileTree} {o : Options} {sources : List Source}
    (h : bundles t o = .ok sources) : [] ∉ inputs o := by
  intro hunnamed
  rw [bundles] at h
  cases hcut : (inputs o).mapM fun input =>
      ((Source.ofPattern input).withMinBundleSize o.minBundleSize).bundles t o.desiredBundleSize with
  | error e => simp [hcut, bind, Except.bind] at h
  | ok parts => exact mapM_ne_ok hunnamed rfl parts hcut

theorem cover_inputs {t : FileTree} {o : Options} {file : Bytes → Container α}
    (hfiles : ∀ input ∈ inputs o, ∀ path ∈ t.glob input, t.Contains path (file path))
    (hnamed : [] ∉ inputs o) :
    ∃ sources, bundles t o = .ok sources ∧ Source.Cover t file sources
      ((inputs o).map fun input =>
        ((t.glob input).map fun path => (file path).records.length).sum).sum := by
  obtain ⟨parts, hcut, hcover⟩ := Source.Cover.mapM fun input hinput =>
    Source.cover_pattern (fun hempty => hnamed (hempty ▸ hinput)) (hfiles input hinput)
      o.minBundleSize o.desiredBundleSize
  refine ⟨parts.flatten, ?_, hcover⟩
  rw [bundles, hcut]
  rfl

theorem totalRecords_eq (tallies : List Tally) :
    Report.totalRecords tallies = (tallies.map Tally.records).sum := by
  induction tallies with
  | nil => rfl
  | cons tally rest ih =>
    rw [List.map_cons, List.sum_cons, ← ih]
    rfl

/-- Bundles that are cut can be read on any schedule. If the pool comes to its end, it has
not failed, and what it has tallied are the records of all files that the inputs match. -/
theorem total_of_schedule {t : FileTree} {o : Options} {file : Bytes → Container Record}
    (hfiles : ∀ input ∈ inputs o, ∀ path ∈ t.glob input, t.Contains path (file path)) :
    ([] ∉ inputs o → ∃ sources, bundles t o = .ok sources) ∧
    ∀ sources, bundles t o = .ok sources → ∀ dump schedule p,
      (Pool.ofSources (workerCount o) sources : Pool Record).follow ⟨t, o, dump⟩ schedule = some p →
      p.isOver → ∃ tallies, p.outcome = .ok tallies ∧
        Report.totalRecords tallies = ((inputs o).map fun input =>
          ((t.glob input).map fun path => (file path).records.length).sum).sum := by
  refine ⟨fun hnamed => ?_, fun sources hbundles dump schedule p hrun hover => ?_⟩
  · obtain ⟨sources, hrun, -⟩ := cover_inputs hfiles hnamed
    exact ⟨sources, hrun⟩
  · obtain ⟨sources', hrun', hcover⟩ := cover_inputs hfiles (named_of_bundles hbundles)
    cases hbundles.symm.trans hrun'
    have hworkers : 0 < workerCount o := Nat.le_max_right _ _
    have hsound := (Pool.sound_ofSources hcover.known hworkers).follow (a := ⟨t, o, dump⟩) hrun
    obtain ⟨houtcome, htotal⟩ := hsound.outcome_of_isOver hover
    refine ⟨_, houtcome, ?_⟩
    rw [totalRecords_eq, List.map_reverse, List.sum_reverse, htotal, hcover.count_eq]

def owl (number : Int64) : Writer.Entry where
  bytes := Bird.encode ⟨number, "owl", "high", 2⟩
  record := LawfulRecord.toRecord (⟨number, "owl", "high", 2⟩ : Bird)

def flocks : List (List Writer.Entry) := [[owl 1, owl 2], [owl 3]]

theorem flocks_sound : ∀ flock ∈ flocks, Writer.Entry.Sound Bird.schema .null flock := by
  have hcount : ∀ flock ∈ flocks, flock.length < 2 ^ 63 := by decide
  have hpayload : ∀ flock ∈ flocks, (Writer.Entry.data flock).length < 2 ^ 63 := by decide +kernel
  have hencodes : ∀ flock ∈ flocks, ∀ e ∈ flock, Record.Encodes Bird.schema e.bytes e.record := by
    decide +kernel
  intro flock hflock
  exact ⟨hcount flock hflock, trivial, hpayload flock hflock,
    fun e he _ => (hencodes flock hflock e he).takes⟩

def owls : Assembly Record :=
  Writer.assembly Bird.schema .null .counting flocks

theorem owls_sound : owls.Sound := by
  have hnull : CodecRegistry.standard.create "null" = .ok .null := rfl
  exact Writer.assembly_sound hnull flocks_sound (by decide +kernel)

def owlsTree : FileTree where
  entries := [(["owls"], .file 0 owls.content)]
  made := 1

def owlsOptions : Options :=
  { Options.standard with inputPattern := "o*", inputFiles := ["owls"], threads := 2 }

/-- The first worker is split after three steps, and does all the work. -/
def owlsSchedule : List Pool.Event :=
  List.replicate 3 (.step 0) ++ .split 0 0x3fe0000000000000 :: List.replicate 24 (.step 0) ++
    [.step 1]

theorem total_owls : ∃ (sources : List Source) (p : Pool Record) (tallies : List Tally),
    bundles owlsTree owlsOptions = .ok sources ∧
    (Pool.ofSources 2 sources).follow ⟨owlsTree, owlsOptions, false⟩ owlsSchedule = some p ∧
    p.isOver ∧ p.outcome = .ok tallies ∧ Report.totalRecords tallies = 6 := by
  have hglob : ∀ input ∈ inputs owlsOptions, owlsTree.glob input = [("owls" : Bytes)] := by
    decide +kernel
  have hmarkers : (owls.container owls_sound).MarkersEndBlocks := by decide +kernel
  have hname : Bird.schema.name ≠ [] := by decide
  have hdecoding := Writer.decoding_assembly hname (by decide) owls_sound
  have hfiles : ∀ input ∈ inputs owlsOptions, ∀ path ∈ owlsTree.glob input,
      owlsTree.Contains path (owls.container owls_sound) := by
    intro input hinput path hpath
    rw [hglob input hinput, List.mem_singleton] at hpath
    rw [hpath]
    exact ⟨⟨0, rfl⟩, hmarkers, hdecoding⟩
  obtain ⟨hcut, htotal⟩ := total_of_schedule hfiles
  obtain ⟨sources, hbundles⟩ := hcut (by decide)
  have hover : ((bundles owlsTree owlsOptions).toOption.bind fun sources =>
      (Pool.ofSources 2 sources : Pool Record).follow ⟨owlsTree, owlsOptions, false⟩
        owlsSchedule).any Pool.isOver = true := by decide +kernel
  rw [hbundles] at hover
  obtain ⟨p, hrun, hover⟩ := (Option.any_eq_true ..).1 hover
  obtain ⟨tallies, houtcome, hrecords⟩ := htotal sources hbundles false owlsSchedule p hrun hover
  refine ⟨sources, p, tallies, hbundles, hrun, hover, houtcome, hrecords.trans ?_⟩
  decide +kernel

end CommandLine
end BlockContainer
