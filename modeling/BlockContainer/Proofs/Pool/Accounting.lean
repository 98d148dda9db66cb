import BlockContainer.Pool.Control
import BlockContainer.Proofs.Container.Partition
import BlockContainer.Proofs.Container.Returning

/-! # Pools account for all records

Each record of the files is at any time in the tally of a read that has ended, under way
with a worker, or in a source of the queue. No step of a worker and no split changes how
many there are in all, and no worker leaves before the last of them has been tallied.
-/
namespace BlockContainer

variable {α : Type}

theorem sum_map_set {β : Type} (f : β → Nat) {l : List β} {i : Nat} {a : β} (h : l[i]? = some a)
    (b : β) : ((l.set i b).map f).sum + f a = (l.map f).sum + f b := by
  induction l generalizing i with
  | nil => simp at h
  | cons x rest ih =>
    cases i with
    | zero =>
      obtain rfl : x = a := by simpa using h
      simp only [List.set_cons_zero, List.map_cons, List.sum_cons]
      omega
    | succ i =>
      have := ih (i := i) (by simpa using h)
      simp only [List.set_cons_succ, List.map_cons, List.sum_cons]
      omega

def ContainerReader.ahead (file : Bytes → Container α) (r : ContainerReader α) : Nat :=
  r.recordsLeft + ((file r.source.path).recordsIn r.blocks.nextBlockStart.toNat
    r.blocks.tracker.stop.toNat).length

theorem ContainerReader.Owes.length {file : Bytes → Container α} {r : ContainerReader α}
    {last : Turn} {records : List α} (h : Owes (file r.source.path) last r records) :
    r.ahead file = records.length := by
  obtain ⟨inBlock, hunder, rfl⟩ := h
  rw [ContainerReader.ahead, hunder.count, List.length_append]

/-- How many records of its file a source covers. -/
def Source.weight (file : Bytes → Container α) (s : Source) : Nat :=
  ((file s.path).recordsOf s).length

/-- The records of a read that are not tallied yet: those that were counted, the current one
if it was not, and those that its reader still has to return. -/
def ActiveRead.due (file : Bytes → Container α) (read : ActiveRead α) : Nat :=
  match read.reader with
  | .container r => read.records + (if read.last = .record then 1 else 0) + r.ahead file
  | .pattern _ => 0

namespace Phase

def due (file : Bytes → Container α) : Phase α → Nat
  | claimed source => source.weight file
  | started read | reading read => read.due file
  | _ => 0

def load : Phase α → Nat
  | waiting | exited => 0
  | _ => 1

end Phase

/-- A record that was brought is current and counts as one. -/
theorem ContainerReader.Moved.length {c : Container α} {r r' : ContainerReader α}
    {records : List α} {next : Turn} (h : Moved c r records next r') :
    ∃ rest, Owes c next r' rest ∧
      records.length = (if next = .record then 1 else 0) + rest.length := by
  obtain ⟨rest, howes, rfl⟩ := h.owes
  refine ⟨rest, howes, ?_⟩
  rw [List.length_append, brought]
  split
  · next hnext =>
    obtain ⟨x, hx⟩ := Option.isSome_iff_exists.1 (h.record hnext)
    rw [hx]
    rfl
  · rfl

theorem ActiveRead.due_of_owes {file : Bytes → Container α} {read : ActiveRead α}
    {r : ContainerReader α} {records : List α} (hreader : read.reader = .container r)
    (h : ContainerReader.Owes (file r.source.path) read.last r records) :
    read.due file = read.records + (if read.last = .record then 1 else 0) + records.length := by
  simp only [due, hreader, h.length]

variable [RecordType α]

structure Source.Known (t : FileTree) (file : Bytes → Container α) (s : Source) : Prop where
  within : s.Within (file s.path) t
  markers : (file s.path).MarkersEndBlocks

structure ActiveRead.Sound (t : FileTree) (file : Bytes → Container α) (read : ActiveRead α)
    (r : ContainerReader α) : Prop where
  reader_eq : read.reader = .container r
  reads : ContainerReader.Reads (file r.source.path) t r
  markers : (file r.source.path).MarkersEndBlocks
  owes : ∃ records, ContainerReader.Owes (file r.source.path) read.last r records
  current : read.last = .record → r.current?.isSome

def Phase.Sound (t : FileTree) (file : Bytes → Container α) : Phase α → Prop
  | claimed source => source.Known t file
  | started read | reading read => ∃ r, read.Sound t file r
  | broken _ _ | failed _ _ => False
  | waiting | released | exited => True

theorem Phase.sound_withReader {t : FileTree} {file : Bytes → Container α} {phase : Phase α}
    {read : ActiveRead α} {reader : Reader α} (h : phase.Sound t file)
    (hread : phase.read? = some read) (hreader : ∃ r, ActiveRead.Sound t file { read with reader } r) :
    (phase.withReader reader).Sound t file ∧ (phase.withReader reader).load = 1 ∧
      (phase.withReader reader).due file = ActiveRead.due file { read with reader } := by
  cases phase <;> cases hread
  · exact ⟨hreader, rfl, rfl⟩
  · exact ⟨hreader, rfl, rfl⟩
  · exact h.elim

theorem ActiveRead.sound_of_moved {t : FileTree} {file : Bytes → Container α}
    {r r' : ContainerReader α} {records : List α} {next : Turn}
    (hreads : ContainerReader.Reads (file r.source.path) t r)
    (hmarkers : (file r.source.path).MarkersEndBlocks)
    (h : ContainerReader.Moved (file r.source.path) r records next r') (source : Source) (n : Nat) :
    ActiveRead.Sound t file { source, reader := .container r', last := next, records := n } r' ∧
      ActiveRead.due file { source, reader := .container r', last := next, records := n } =
        n + records.length := by
  obtain ⟨rest, howes, hlength⟩ := h.length
  have hsource := h.same.source_eq
  have hreads' := ContainerReader.reads_of_same hreads h.same
  rw [← hsource] at hreads' hmarkers howes
  refine ⟨⟨rfl, hreads', hmarkers, ⟨rest, howes⟩, h.record⟩, ?_⟩
  simp only [ActiveRead.due, howes.length, hlength]
  omega

/-- What a split gives up and what it leaves are together what there was. -/
theorem ActiveRead.sound_of_split {t : FileTree} {file : Bytes → Container α}
    {read : ActiveRead α} {r : ContainerReader α} (h : read.Sound t file r) (fraction : UInt64) :
    ∃ residual? reader, read.reader.trySplit fraction = (residual?, reader) ∧
      (∃ r', ActiveRead.Sound t file { read with reader } r') ∧
      (∀ s ∈ residual?, s.Known t file) ∧
      ActiveRead.due file { read with reader } +
        (residual?.toList.map (Source.weight file)).sum = read.due file := by
  obtain ⟨records, howes⟩ := h.owes
  rcases ContainerReader.divides_owes _ _ howes fraction with
    hnone | ⟨cut, kept, hcut, hstart, hstop, hkept, hrecords⟩
  · refine ⟨none, .container r, ?_, ⟨r, rfl, h.reads, h.markers, h.owes, h.current⟩, by simp, ?_⟩
    · simp only [h.reader_eq, Reader.trySplit, hnone]
    · rw [← h.reader_eq]
      rfl
  · have hdivided := ContainerReader.divided_cutAt h.reads hstart hstop
    have hgiven := hdivided.within _ (List.mem_singleton.2 rfl)
    have hrecords := hrecords.trans
      (congrArg (kept ++ ·) (ContainerReader.recordsOf_residual h.reads cut).symm)
    refine ⟨some (r.source.subrange r.source.path cut r.range.stop), .container (r.cutAt cut), ?_,
      ⟨r.cutAt cut, rfl, hdivided.reads, h.markers, ⟨kept, hkept⟩, h.current⟩, ?_, ?_⟩
    · simp only [h.reader_eq, Reader.trySplit, hcut]
      rfl
    · rintro s ⟨⟩
      exact ⟨hgiven, h.markers⟩
    · have hbefore := ActiveRead.due_of_owes h.reader_eq howes
      have hafter : ActiveRead.due file { read with reader := .container (r.cutAt cut) } = _ :=
        ActiveRead.due_of_owes rfl hkept
      have hsum : ([r.source.subrange r.source.path cut r.range.stop].map
          (Source.weight file)).sum = (Source.weight file _) := Nat.add_zero _
      rw [hrecords, List.length_append] at hbefore
      rw [hafter, hbefore, Option.toList_some, hsum]
      exact (Nat.add_assoc _ _ _)

theorem Pool.beginRead_of_known {a : Assignment} {file : Bytes → Container α} {s : Source}
    (h : s.Known a.tree file) :
    ∃ read r, beginRead a s = .ok read ∧ read.Sound a.tree file r ∧
      read.due file = s.weight file := by
  have hscan := UInt64.lt_iff_toNat_lt.1 a.options.scanSize_pos
  obtain ⟨r, hcreate, hunopened, hreads, rfl, hrange⟩ :=
    ContainerReader.create_of_within h.within (.inr ⟨h.markers, hscan⟩)
  obtain ⟨found, r', hstart, hmoved⟩ := ContainerReader.start_of_unopened hunopened
  obtain ⟨hsound, hdue⟩ := ActiveRead.sound_of_moved hreads h.markers hmoved r.source 0
  refine ⟨_, r', ?_, hsound, hdue.trans ?_⟩
  · simp only [beginRead, Reader.create, h.within.validate, h.within.mode_eq, hcreate, bind,
      Except.bind, Except.mapError, pure, Except.pure, Reader.start, Reader.step, hstart]
  · rw [Nat.zero_add, Source.weight, Container.recordsOf, ← hrange]
    rfl

namespace Pool

omit [RecordType α] in
theorem busy_pos_of_load {p : Pool α} {i : Nat} {w : Worker α}
    (hbusy : p.busy = (p.workers.map fun w => w.phase.load).sum) (hw : p.workers[i]? = some w)
    (hload : w.phase.load = 1) : 0 < p.busy := by
  have hset := sum_map_set (fun w => w.phase.load) hw ({} : Worker α)
  have hwaiting : ({} : Worker α).phase.load = 0 := rfl
  omega

/-- All records are tallied, under way or queued, and who has left has missed nothing. -/
structure Sound (t : FileTree) (file : Bytes → Container α) (total : Nat) (p : Pool α) : Prop where
  staffed : p.workers ≠ []
  workers : ∀ w ∈ p.workers, w.phase.Sound t file
  queue : ∀ s ∈ p.queue, s.Known t file
  conserved : (p.tallies.map Tally.records).sum +
    (p.workers.map fun w => w.phase.due file).sum + (p.queue.map (Source.weight file)).sum = total
  busy : p.busy = (p.workers.map fun w => w.phase.load).sum
  no_error : p.error? = none
  exited : ∀ w ∈ p.workers, w.phase = .exited → p.queue = [] ∧ p.busy = 0

variable {t : FileTree} {file : Bytes → Container α} {total : Nat} {p : Pool α} {i : Nat}
  {w : Worker α}

theorem Sound.not_exited (h : Sound t file total p) (hmore : p.queue ≠ [] ∨ 0 < p.busy)
    {v : Worker α} (hv : v.phase ≠ .exited) : ∀ x ∈ p.workers.set i v, x.phase ≠ .exited := by
  intro x hx hexited
  rcases List.mem_or_eq_of_mem_set hx with hx | rfl
  · obtain ⟨hqueue, hbusy⟩ := h.exited x hx hexited
    rcases hmore with hne | hlt
    · exact hne hqueue
    · omega
  · exact hv hexited

/-- What a step has to keep, if it concerns one worker. -/
structure Exchange (t : FileTree) (file : Bytes → Container α) (p : Pool α) (i : Nat)
    (w v : Worker α) (p' : Pool α) : Prop where
  workers_eq : p'.workers = p.workers.set i v
  phase : v.phase.Sound t file
  queue : ∀ s ∈ p'.queue, s.Known t file
  conserved : (p'.tallies.map Tally.records).sum + v.phase.due file +
      (p'.queue.map (Source.weight file)).sum =
    (p.tallies.map Tally.records).sum + w.phase.due file +
      (p.queue.map (Source.weight file)).sum
  busy : p'.busy + w.phase.load = p.busy + v.phase.load
  no_error : p'.error? = none
  exited : ∀ x ∈ p'.workers, x.phase = .exited → p'.queue = [] ∧ p'.busy = 0

theorem Sound.exchange (h : Sound t file total p) (hw : p.workers[i]? = some w) {v : Worker α}
    {p' : Pool α} (hx : Exchange t file p i w v p') : Sound t file total p' where
  staffed := by
    rw [hx.workers_eq]
    simpa using h.staffed
  workers x hmem := by
    rw [hx.workers_eq] at hmem
    rcases List.mem_or_eq_of_mem_set hmem with hmem | rfl
    · exact h.workers x hmem
    · exact hx.phase
  queue := hx.queue
  conserved := by
    have hdue := sum_map_set (fun w => w.phase.due file) hw v
    have hbefore := h.conserved
    have hconserved := hx.conserved
    rw [hx.workers_eq]
    omega
  busy := by
    have hload := sum_map_set (fun w => w.phase.load) hw v
    have hbefore := h.busy
    have hbusy := hx.busy
    rw [hx.workers_eq]
    omega
  no_error := hx.no_error
  exited := hx.exited

theorem Sound.busy_pos (h : Sound t file total p) (hw : p.workers[i]? = some w)
    (hload : w.phase.load = 1) : 0 < p.busy :=
  busy_pos_of_load h.busy hw hload

theorem Sound.go_on (h : Sound t file total p) (hw : p.workers[i]? = some w)
    (hload : w.phase.load = 1) {v : Worker α} (hload' : v.phase.load = 1)
    (hphase : v.phase.Sound t file) (hdue : v.phase.due file = w.phase.due file)
    (dumped : List Bytes) : Sound t file total { p.put i v with dumped } := by
  refine h.exchange hw ⟨rfl, hphase, h.queue, ?_, ?_, h.no_error, fun x hx hexited => ?_⟩
  · rw [hdue]
    rfl
  · change p.busy + _ = _
    rw [hload, hload']
  · have hstays : v.phase ≠ .exited := fun heq => by simp [heq, Phase.load] at hload'
    exact absurd hexited (h.not_exited (.inr (h.busy_pos hw hload)) hstays x hx)

/-- A worker takes the first source of the queue, or leaves when all is done. -/
theorem Sound.claim (h : Sound t file total p) (hw : p.workers[i]? = some w)
    (hphase : w.phase = .waiting) {p' : Pool α} (hclaim : p.claim i = some p') :
    Sound t file total p' := by
  have hload : w.phase.load = 0 := by rw [hphase]; rfl
  have hdue : w.phase.due file = 0 := by rw [hphase]; rfl
  simp only [Pool.claim, h.no_error] at hclaim
  cases hqueue : p.queue with
  | cons source queue =>
    simp only [hqueue, Option.some.injEq] at hclaim
    subst hclaim
    have hknown := h.queue
    rw [hqueue] at hknown
    refine h.exchange hw (v := { phase := .claimed source }) ⟨rfl, hknown source (by simp),
      fun s hs => hknown s (by simp [hs]), ?_, ?_, h.no_error, fun v hv hexited => ?_⟩
    · change _ + source.weight file + (queue.map _).sum = _
      rw [hdue, hqueue, List.map_cons, List.sum_cons]
      simp only [Pool.put]
      omega
    · change p.busy + 1 + _ = p.busy + 1
      rw [hload]
    · exact absurd hexited (h.not_exited (.inl (by simp [hqueue])) (by simp) v hv)
  | nil =>
    simp only [hqueue] at hclaim
    split at hclaim
    · next hidle =>
      cases hclaim
      refine h.exchange hw (v := { phase := .exited }) ⟨rfl, trivial, h.queue, ?_, ?_, h.no_error,
        fun v hv hexited => ⟨hqueue, hidle⟩⟩
      · change _ + 0 + _ = _
        rw [hdue]
        rfl
      · change p.busy + _ = p.busy + 0
        rw [hload]
    · cases hclaim

theorem Sound.start {a : Assignment} (h : Sound a.tree file total p) (hw : p.workers[i]? = some w)
    {source : Source} (hphase : w.phase = .claimed source) :
    Sound a.tree file total (p.start a i source) := by
  have hknown : source.Known a.tree file := by
    have := h.workers w (List.mem_of_getElem? hw)
    rwa [hphase] at this
  obtain ⟨read, r, hbegin, hsound, hdue⟩ := beginRead_of_known hknown
  rw [Pool.start, hbegin]
  refine h.go_on hw (v := { phase := .started read }) (by rw [hphase]; rfl) rfl ⟨r, hsound⟩ ?_
    p.dumped
  rw [hphase]
  exact hdue

theorem Sound.read {read : ActiveRead α} (h : Sound t file total p)
    (hw : p.workers[i]? = some w) (hread : w.phase.read? = some read) :
    (∃ r, read.Sound t file r) ∧ w.phase.load = 1 ∧ w.phase.due file = read.due file := by
  have hsound := h.workers w (List.mem_of_getElem? hw)
  cases hphase : w.phase <;> rw [hphase] at hsound hread <;> cases hread
  · exact ⟨hsound, rfl, rfl⟩
  · exact ⟨hsound, rfl, rfl⟩
  · exact hsound.elim

theorem Sound.register {read : ActiveRead α} (h : Sound t file total p)
    (hw : p.workers[i]? = some w) (hphase : w.phase = .started read) :
    Sound t file total (p.register i read) := by
  obtain ⟨hsound, hload, hdue⟩ := h.read hw (by rw [hphase]; rfl)
  exact h.go_on (v := ⟨.reading read, _⟩) hw hload rfl hsound hdue.symm p.dumped

theorem Sound.count {read : ActiveRead α} (h : Sound t file total p)
    (hw : p.workers[i]? = some w) (hphase : w.phase = .reading read) (hlast : read.last = .record)
    (dumped : List Bytes) : Sound t file total { p.count i w read with dumped } := by
  obtain ⟨⟨r, hsound⟩, hload, hdue⟩ := h.read hw (by rw [hphase]; rfl)
  obtain ⟨records, howes⟩ := hsound.owes
  have hcounted := howes.counted
  have hafter : ActiveRead.Sound t file
      { read with last := .unfinished, records := read.records + 1 } r :=
    ⟨hsound.reader_eq, hsound.reads, hsound.markers, ⟨records, hcounted⟩, by simp⟩
  have hdueAfter := ActiveRead.due_of_owes hafter.reader_eq hcounted
  have hdueBefore := ActiveRead.due_of_owes hsound.reader_eq howes
  rw [if_pos hlast] at hdueBefore
  refine h.go_on (v := ⟨.reading _, w.controlled?⟩) hw hload rfl ⟨r, hafter⟩ ?_ dumped
  rw [hdue, hdueBefore]
  exact hdueAfter

theorem Sound.takeTurn {a : Assignment} {read : ActiveRead α} (h : Sound a.tree file total p)
    (hw : p.workers[i]? = some w) (hphase : w.phase = .reading read)
    (hlast : read.last ≠ .record) : Sound a.tree file total (p.takeTurn a i w read) := by
  obtain ⟨⟨r, hsound⟩, hload, hdue⟩ := h.read hw (by rw [hphase]; rfl)
  obtain ⟨records, howes⟩ := hsound.owes
  obtain ⟨next, r', hturn, hmoved⟩ := ContainerReader.turn_of_owes howes
  obtain ⟨hsound', hdue'⟩ :=
    ActiveRead.sound_of_moved hsound.reads hsound.markers hmoved read.source read.records
  have hrun : Reader.turn a.tree read.last read.reader = .ok next (.container r') := by
    simp only [hsound.reader_eq, Reader.turn, Reader.step, hturn]
  have hbefore := ActiveRead.due_of_owes hsound.reader_eq howes
  rw [if_neg hlast] at hbefore
  rw [Pool.takeTurn, hrun]
  refine h.go_on (v := ⟨.reading _, w.controlled?⟩) hw hload rfl ⟨r', hsound'⟩ ?_ p.dumped
  rw [hdue, hbefore]
  exact hdue'

/-- When a reader is at its end, all records of the read have been counted. -/
theorem Sound.finish {read : ActiveRead α} (h : Sound t file total p)
    (hw : p.workers[i]? = some w) (hphase : w.phase = .reading read)
    (hlast : read.last = .finished) : Sound t file total (p.finish i read) := by
  obtain ⟨⟨r, hsound⟩, hload, hdue⟩ := h.read hw (by rw [hphase]; rfl)
  obtain ⟨records, howes⟩ := hsound.owes
  have hnone : records = [] := by
    rw [hlast] at howes
    exact howes.finished
  have hbefore := ActiveRead.due_of_owes hsound.reader_eq howes
  simp only [hlast, hnone, reduceCtorEq, if_false, List.length_nil, Nat.add_zero] at hbefore
  refine h.exchange (v := { phase := .released }) hw
    ⟨rfl, trivial, h.queue, ?_, ?_, h.no_error, fun x hx hexited => ?_⟩
  · change (read.records + (p.tallies.map _).sum) + 0 + (p.queue.map _).sum = _
    rw [hdue, hbefore]
    omega
  · change p.busy + _ = p.busy + 1
    rw [hload]
  · exact absurd hexited (h.not_exited (.inr (h.busy_pos hw hload)) (by simp) x hx)

theorem Sound.countAndDump {read : ActiveRead α} (h : Sound t file total p)
    (hw : p.workers[i]? = some w) (hphase : w.phase = .reading read)
    (hlast : read.last = .record) : Sound t file total (p.countAndDump i w read) := by
  obtain ⟨⟨r, hsound⟩, -, -⟩ := h.read hw (by rw [hphase]; rfl)
  obtain ⟨record, hrecord⟩ := Option.isSome_iff_exists.1 (hsound.current hlast)
  have hcurrent : read.reader.current = .ok record := by
    simp only [hsound.reader_eq, Reader.current, ContainerReader.current, hrecord]
  rw [Pool.countAndDump, hcurrent]
  exact h.count hw hphase hlast _

theorem Sound.goOn {a : Assignment} {read : ActiveRead α} (h : Sound a.tree file total p)
    (hw : p.workers[i]? = some w) (hphase : w.phase = .reading read) :
    Sound a.tree file total (p.goOn a i w read) := by
  rw [Pool.goOn]
  split
  · next hlast =>
    split
    · exact h.countAndDump hw hphase hlast
    · exact h.count hw hphase hlast p.dumped
  · next hlast => exact h.finish hw hphase hlast
  · next hlast => exact h.takeTurn hw hphase (by simp [hlast])
  · next hlast => exact h.takeTurn hw hphase (by simp [hlast])

theorem Sound.release (h : Sound t file total p) (hw : p.workers[i]? = some w)
    (hphase : w.phase = .released) : Sound t file total (p.release i) := by
  have hload : w.phase.load = 1 := by rw [hphase]; rfl
  have hdue : w.phase.due file = 0 := by rw [hphase]; rfl
  have hpos := h.busy_pos hw hload
  refine h.exchange (v := { phase := .waiting }) hw
    ⟨rfl, trivial, h.queue, ?_, ?_, h.no_error, fun x hx hexited => ?_⟩
  · change _ + 0 + _ = _
    rw [hdue]
    rfl
  · change p.busy - 1 + _ = p.busy + 0
    omega
  · exact absurd hexited (h.not_exited (.inr hpos) (by simp) x hx)

/-- No step of a worker loses a record, counts one twice or fails. -/
theorem Sound.step {a : Assignment} (h : Sound a.tree file total p) {p' : Pool α}
    (hstep : p.step a i = some p') : Sound a.tree file total p' := by
  rw [Pool.step] at hstep
  obtain ⟨w, hw, hstep⟩ := Option.bind_eq_some_iff.1 hstep
  have hworker := h.workers w (List.mem_of_getElem? hw)
  split at hstep
  · next hphase => exact h.claim hw hphase hstep
  · next source hphase =>
    cases hstep
    exact h.start hw hphase
  · next read hphase =>
    cases hstep
    exact h.register hw hphase
  · next read hphase =>
    cases hstep
    exact h.goOn hw hphase
  · next hphase =>
    rw [hphase] at hworker
    exact hworker.elim
  · next hphase =>
    rw [hphase] at hworker
    exact hworker.elim
  · next hphase =>
    cases hstep
    exact h.release hw hphase
  · cases hstep

/-- A split only moves records from a worker to the queue, while the worker is busy. -/
theorem Sound.split (h : Sound t file total p) (i : Nat) (fraction : UInt64) :
    Sound t file total (p.split i fraction) := by
  rw [Pool.split]
  split
  · next w range read hw hcontrolled =>
    have hread : w.phase.read? = some read := by
      simp only [Pool.controlled?, hw, Option.bind_eq_bind, Option.bind_some,
        Option.bind_eq_some_iff] at hcontrolled
      obtain ⟨range, -, read, hread, hsame⟩ := hcontrolled
      cases hsame
      exact hread
    obtain ⟨⟨r, hsound⟩, hload, hdue⟩ := h.read hw hread
    obtain ⟨residual?, reader, hrun, hreader, hknown, hconserved⟩ := ActiveRead.sound_of_split hsound fraction
    obtain ⟨hphase, hload', hdue'⟩ := Phase.sound_withReader
      (h.workers w (List.mem_of_getElem? hw)) hread hreader
    simp only [hrun]
    refine h.exchange (v := { w with phase := w.phase.withReader reader }) hw
      ⟨rfl, hphase, ?_, ?_, ?_, h.no_error, fun x hx hexited => ?_⟩
    · intro s hs
      rcases List.mem_append.1 hs with hs | hs
      · exact h.queue s hs
      · exact hknown s (Option.mem_toList.1 hs)
    · change (p.tallies.map _).sum + (w.phase.withReader reader).due file + _ = _
      rw [hdue, hdue', List.map_append, List.sum_append]
      simp only [Pool.put]
      omega
    · change p.busy + _ = p.busy + (w.phase.withReader reader).load
      rw [hload, hload']
    · have hstays : w.phase.withReader reader ≠ .exited := fun heq => by
        simp [heq, Phase.load] at hload'
      exact absurd hexited (h.not_exited (.inr (h.busy_pos hw hload)) hstays x hx)
  · exact h

/-- Whatever the schedule, all records stay accounted for. -/
theorem Sound.follow {a : Assignment} {schedule : List Event} (h : Sound a.tree file total p)
    {p' : Pool α} (hrun : p.follow a schedule = some p') : Sound a.tree file total p' := by
  induction schedule generalizing p with
  | nil =>
    cases hrun
    exact h
  | cons event rest ih =>
    simp only [Pool.follow, List.foldlM_cons] at hrun
    obtain ⟨p₁, hevent, hrest⟩ := Option.bind_eq_some_iff.1 hrun
    cases event with
    | step i => exact ih (h.step hevent) hrest
    | split i fraction =>
      cases hevent
      exact ih (h.split i fraction) hrest

theorem sound_ofSources {sources : List Source} (h : ∀ s ∈ sources, s.Known t file) {n : Nat}
    (hn : 0 < n) :
    Sound t file (sources.map (Source.weight file)).sum (ofSources n sources : Pool α) where
  staffed := by
    rw [ofSources, Ne, List.replicate_eq_nil_iff]
    omega
  workers w hw := by
    rw [List.eq_of_mem_replicate hw]
    trivial
  queue := h
  conserved := by simp [ofSources, Phase.due]
  busy := by simp [ofSources, Phase.load]
  no_error := rfl
  exited w hw hexited := by
    rw [List.eq_of_mem_replicate hw] at hexited
    cases hexited

omit [RecordType α] in
theorem isOver_iff : p.isOver ↔ ∀ w ∈ p.workers, w.phase = .exited := by
  unfold isOver
  rw [List.all_eq_true]
  refine forall₂_congr fun w hw => ?_
  cases w.phase <;> simp

omit [RecordType α] in
/-- What a worker that has left counts nothing for comes to nothing once all have left. -/
theorem sum_of_isOver (hover : p.isOver) (f : Phase α → Nat)
    (hexited : f .exited = 0) : (p.workers.map fun w => f w.phase).sum = 0 := by
  apply List.sum_eq_zero_iff_forall_eq_nat.2
  intro n hn
  obtain ⟨w, hw, rfl⟩ := List.mem_map.1 hn
  rw [isOver_iff.1 hover w hw, hexited]

/-- Once all workers have left nothing has failed, and all records have been tallied. -/
theorem Sound.outcome_of_isOver (h : Sound t file total p) (hover : p.isOver) :
    p.outcome = .ok p.tallies.reverse ∧ (p.tallies.map Tally.records).sum = total := by
  have hexited := isOver_iff.1 hover
  obtain ⟨w, hw⟩ := List.exists_mem_of_ne_nil _ h.staffed
  obtain ⟨hqueue, -⟩ := h.exited w hw (hexited w hw)
  have hdue := sum_of_isOver hover (Phase.due file) rfl
  have hconserved := h.conserved
  rw [hdue, hqueue] at hconserved
  exact ⟨by rw [Pool.outcome, h.no_error], by simpa using hconserved⟩

end Pool
end BlockContainer
