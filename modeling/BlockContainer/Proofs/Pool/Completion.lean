import BlockContainer.Pool.Solo
import BlockContainer.Proofs.Pool.Accounting

/-! # Pools complete everything or report an error

What happens along a schedule is kept in a log: which sources the splits put into the queue,
which worker took which source, and what the reads threw. After every schedule the log agrees
with the pool. So a pool that all workers have left without an error has read every source
to its end, and one in which a read threw has the first failure that was recorded.
-/
namespace BlockContainer

variable {α : Type}

/-- What happens in a pool and is not kept in it. -/
structure Log where
  /-- The sources that splits put into the queue. -/
  queued : List Source := []
  /-- The sources that were taken from the queue, with the workers that took them. -/
  claims : List (Nat × Source) := []
  /-- The failures of reads, with their sources. -/
  thrown : List (Source × Error) := []

namespace Log

def append (l l' : Log) : Log where
  queued := l.queued ++ l'.queued
  claims := l.claims ++ l'.claims
  thrown := l.thrown ++ l'.thrown

instance : Append Log := ⟨append⟩

theorem append_assoc (l l' l'' : Log) : l ++ l' ++ l'' = l ++ (l' ++ l'') := by
  change append (append l l') l'' = append l (append l' l'')
  simp only [append, List.append_assoc]

theorem append_empty (l : Log) : l ++ ({} : Log) = l := by
  change append l {} = l
  simp only [append, List.append_nil]

theorem empty_append (l : Log) : ({} : Log) ++ l = l := rfl

end Log

namespace Phase

def source? : Phase α → Option Source
  | claimed source => some source
  | started read | reading read | broken read _ => some read.source
  | failed source _ => some source
  | waiting | released | exited => none

def thrown? : Phase α → Option (Source × Error)
  | broken read cause => some (read.source, cause)
  | failed source cause => some (source, cause)
  | _ => none

def newlyThrown (phase next : Phase α) : List (Source × Error) :=
  match phase.thrown? with
  | some _ => []
  | none => next.thrown?.toList

end Phase

variable [RecordType α]

/-- What a read of a source comes to before it fails or is tallied: it is begun, goes on by
turns until one finds that there is no further record, counts the records that it finds, and
may be split at any time. -/
inductive ReadOf (a : Assignment) (source : Source) : ActiveRead α → Prop where
  | begun {read : ActiveRead α} (begins : Pool.beginRead a source = .ok read) : ReadOf a source read
  | turned {read : ActiveRead α} {last : Turn} {reader : Reader α} (before : ReadOf a source read)
      (due : read.last = .unfinished ∨ read.last = .approached)
      (turns : Reader.turn a.tree read.last read.reader = .ok last reader) :
      ReadOf a source { read with reader, last }
  | counted {read : ActiveRead α} (before : ReadOf a source read) (found : read.last = .record) :
      ReadOf a source { read with last := .unfinished, records := read.records + 1 }
  | split {read : ActiveRead α} (before : ReadOf a source read) (fraction : UInt64) :
      ReadOf a source { read with reader := (read.reader.trySplit fraction).2 }

/-- The tally is of a read of its source that found no further record. -/
def Tally.Exhausted (α : Type) [RecordType α] (a : Assignment) (t : Tally) : Prop :=
  ∃ read : ActiveRead α, ReadOf a t.source read ∧ read.last = .finished ∧
    t.rest = read.reader.currentSource ∧ t.records = read.records

structure Worker.Orderly (a : Assignment) (w : Worker α) : Prop where
  reads : ∀ read, w.phase = .started read ∨ w.phase = .reading read → ReadOf a read.source read
  controlled : w.controlled?.isSome →
    ∃ read, w.phase = .reading read ∨ ∃ cause, w.phase = .broken read cause

namespace Pool

def claimed? (i : Nat) (p : Pool α) : Option (Nat × Source) :=
  match p.phaseOf i, p.error?, p.queue with
  | .waiting, none, source :: _ => some (i, source)
  | _, _, _ => none

def givesUp? (i : Nat) (fraction : UInt64) (p : Pool α) : Option Source :=
  (p.controlled? i).bind fun (_, read) => (read.reader.trySplit fraction).1

def observe (p : Pool α) (event : Event) (p' : Pool α) : Log :=
  match event with
  | .step i => {
      claims := (p.claimed? i).toList
      thrown := (p.phaseOf i).newlyThrown (p'.phaseOf i) }
  | .split i fraction => { queued := (p.givesUp? i fraction).toList }

def logOf (a : Assignment) : List Event → Pool α → Log
  | [], _ => {}
  | event :: rest, p => match p.perform a event with
    | none => {}
    | some p' => p.observe event p' ++ logOf a rest p'

/-- The log and the pool agree. -/
structure Agrees (a : Assignment) (sources : List Source) (log : Log) (p : Pool α) : Prop where
  staffed : p.workers ≠ []
  orderly : ∀ w ∈ p.workers, w.Orderly a
  queue : sources ++ log.queued = log.claims.map Prod.snd ++ p.queue
  claimed : ∀ s, (log.claims.map Prod.snd).count s = (p.tallies.map Tally.source).count s +
    (p.failures.map Prod.fst).count s +
    (p.workers.map fun w => w.phase.source?.toList.count s).sum
  thrown : ∀ x, log.thrown.count x = p.failures.count x +
    (p.workers.map fun w => w.phase.thrown?.toList.count x).sum
  error : p.error? = p.failures.getLast?.map Prod.snd
  busy : p.busy = (p.workers.map fun w => w.phase.load).sum
  exited : ∀ w ∈ p.workers, w.phase = .exited → p.error?.isSome ∨ p.queue = [] ∧ p.busy = 0
  exhausted : ∀ tally ∈ p.tallies, tally.Exhausted α a

variable {a : Assignment} {sources : List Source} {log : Log} {p : Pool α} {i : Nat} {w : Worker α}

omit [RecordType α] in
theorem phaseOf_of_worker (hw : p.workers[i]? = some w) : p.phaseOf i = w.phase := by
  simp [phaseOf, hw]

/-- What an event has to keep, if it concerns one worker. -/
structure Replaces (a : Assignment) (p : Pool α) (i : Nat) (w v : Worker α) (new : Log)
    (p' : Pool α) : Prop where
  workers_eq : p'.workers = p.workers.set i v
  orderly : v.Orderly a
  queue : p.queue ++ new.queued = new.claims.map Prod.snd ++ p'.queue
  claimed : ∀ s, (p'.tallies.map Tally.source).count s + (p'.failures.map Prod.fst).count s +
      v.phase.source?.toList.count s =
    (p.tallies.map Tally.source).count s + (p.failures.map Prod.fst).count s +
      w.phase.source?.toList.count s + (new.claims.map Prod.snd).count s
  thrown : ∀ x, p'.failures.count x + v.phase.thrown?.toList.count x =
    p.failures.count x + w.phase.thrown?.toList.count x + new.thrown.count x
  error : p'.error? = p'.failures.getLast?.map Prod.snd
  busy : p'.busy + w.phase.load = p.busy + v.phase.load
  exited : ∀ x ∈ p'.workers, x.phase = .exited → p'.error?.isSome ∨ p'.queue = [] ∧ p'.busy = 0
  exhausted : ∀ tally ∈ p'.tallies, tally.Exhausted α a

theorem Agrees.replace (h : Agrees a sources log p) (hw : p.workers[i]? = some w) {v : Worker α}
    {new : Log} {p' : Pool α} (hx : Replaces a p i w v new p') :
    Agrees a sources (log ++ new) p' where
  staffed := by
    rw [hx.workers_eq]
    simpa using h.staffed
  orderly x hmem := by
    rw [hx.workers_eq] at hmem
    rcases List.mem_or_eq_of_mem_set hmem with hmem | rfl
    · exact h.orderly x hmem
    · exact hx.orderly
  queue := by
    change sources ++ (log.queued ++ new.queued) = (log.claims ++ new.claims).map Prod.snd ++ p'.queue
    rw [← List.append_assoc, h.queue, List.append_assoc, hx.queue, List.map_append,
      List.append_assoc]
  claimed s := by
    have hset := sum_map_set (fun w => w.phase.source?.toList.count s) hw v
    have hbefore := h.claimed s
    have hnew := hx.claimed s
    change ((log.claims ++ new.claims).map Prod.snd).count s = _
    rw [hx.workers_eq, List.map_append, List.count_append]
    omega
  thrown x := by
    have hset := sum_map_set (fun w => w.phase.thrown?.toList.count x) hw v
    have hbefore := h.thrown x
    have hnew := hx.thrown x
    change (log.thrown ++ new.thrown).count x = _
    rw [hx.workers_eq, List.count_append]
    omega
  error := hx.error
  busy := by
    have hset := sum_map_set (fun w => w.phase.load) hw v
    have hbefore := h.busy
    have hbusy := hx.busy
    rw [hx.workers_eq]
    omega
  exited := hx.exited
  exhausted := hx.exhausted

omit [RecordType α] in
/-- What is noted of a step of a worker that has a source in hand. -/
theorem observe_step (hw : p.workers[i]? = some w) (hload : w.phase.load = 1) {v : Worker α}
    {p' : Pool α} (hset : p'.workers = p.workers.set i v) :
    p.observe (.step i) p' = { thrown := w.phase.newlyThrown v.phase } := by
  have hphase := phaseOf_of_worker hw
  have hi := (List.getElem?_eq_some_iff.1 hw).1
  have hphase' : p'.phaseOf i = v.phase := by simp [phaseOf, hset, hi]
  have hnone : p.claimed? i = none := by
    unfold claimed?
    rw [hphase]
    cases hw : w.phase with
    | waiting =>
      rw [hw] at hload
      cases hload
    | _ => rfl
  simp only [observe, hnone, hphase, hphase', Option.toList_none]

/-- While a worker is busy, another one has left only for an error. -/
theorem Agrees.error_of_exited (h : Agrees a sources log p) (hw : p.workers[i]? = some w)
    (hload : w.phase.load = 1) {v : Worker α} (hv : v.phase ≠ .exited) :
    ∀ x ∈ p.workers.set i v, x.phase = .exited → p.error?.isSome := by
  intro x hx hexited
  have hpos := busy_pos_of_load h.busy hw hload
  rcases List.mem_or_eq_of_mem_set hx with hx | rfl
  · rcases h.exited x hx hexited with herror | ⟨-, hidle⟩
    · exact herror
    · omega
  · exact absurd hexited hv

/-- A worker goes on with the source that it has in hand. -/
theorem Agrees.goes_on (h : Agrees a sources log p) (hw : p.workers[i]? = some w)
    (hload : w.phase.load = 1) {v : Worker α} (hload' : v.phase.load = 1) (hv : v.Orderly a)
    (hsource : v.phase.source? = w.phase.source?)
    (hthrown : ∀ x ∈ w.phase.thrown?, v.phase.thrown? = some x) (dumped : List Bytes) :
    Agrees a sources (log ++ p.observe (.step i) { p.put i v with dumped })
      { p.put i v with dumped } := by
  have hstays : v.phase ≠ .exited := by
    intro hexited
    simp [hexited, Phase.load] at hload'
  have hset : ({ p.put i v with dumped } : Pool α).workers = p.workers.set i v := rfl
  rw [observe_step hw hload hset]
  apply h.replace hw
  constructor
  · rfl
  · exact hv
  · exact List.append_nil _
  · intro s
    rw [hsource]
    rfl
  · intro x
    change p.failures.count x + _ = p.failures.count x + _ + (w.phase.newlyThrown v.phase).count x
    unfold Phase.newlyThrown
    cases hphase : w.phase.thrown? with
    | none => simp
    | some y => simp [hthrown y hphase]
  · exact h.error
  · rw [hload, hload']
    rfl
  · intro x hx hexited
    exact .inl (h.error_of_exited hw hload hstays x hx hexited)
  · exact h.exhausted

omit [RecordType α] in
/-- What is noted of a step of a worker that waits. -/
theorem observe_claim (hw : p.workers[i]? = some w) (hphase : w.phase = .waiting) {v : Worker α}
    (hv : v.phase.thrown? = none) {p' : Pool α} (hset : p'.workers = p.workers.set i v) :
    p.observe (.step i) p' = { claims := (p.claimed? i).toList } := by
  have hbefore := phaseOf_of_worker hw
  have hi := (List.getElem?_eq_some_iff.1 hw).1
  have hafter : p'.phaseOf i = v.phase := by simp [phaseOf, hset, hi]
  have hnone : w.phase.newlyThrown v.phase = [] := by
    rw [hphase]
    unfold Phase.newlyThrown
    rw [hv]
    rfl
  simp only [observe, hbefore, hafter, hnone]

/-- A worker leaves when nothing is left to do, or after an error. -/
theorem Agrees.leave (h : Agrees a sources log p) (hw : p.workers[i]? = some w)
    (hphase : w.phase = .waiting) (hnone : p.claimed? i = none)
    (hdue : p.error?.isSome ∨ p.queue = [] ∧ p.busy = 0) :
    Agrees a sources (log ++ p.observe (.step i) (p.put i { phase := .exited }))
      (p.put i { phase := .exited }) := by
  rw [observe_claim hw hphase (v := { phase := .exited }) rfl rfl, hnone]
  apply h.replace hw (v := { phase := .exited })
  constructor
  · rfl
  · constructor <;> simp
  · exact List.append_nil _
  · intro s
    rw [hphase]
    rfl
  · intro x
    rw [hphase]
    rfl
  · exact h.error
  · rw [hphase]
    rfl
  · exact fun _ _ _ => hdue
  · exact h.exhausted

/-- A worker takes the first source of the queue, or leaves. -/
theorem Agrees.claim (h : Agrees a sources log p) (hw : p.workers[i]? = some w)
    (hphase : w.phase = .waiting) {p' : Pool α} (hclaim : p.claim i = some p') :
    Agrees a sources (log ++ p.observe (.step i) p') p' := by
  have hbefore := (phaseOf_of_worker hw).trans hphase
  unfold Pool.claim at hclaim
  cases herror : p.error? with
  | some e =>
    have hnone : p.claimed? i = none := by simp [claimed?, hbefore, herror]
    simp only [herror, Option.some.injEq] at hclaim
    subst hclaim
    exact h.leave hw hphase hnone (.inl (by rw [herror]; rfl))
  | none =>
    cases hqueue : p.queue with
    | nil =>
      have hnone : p.claimed? i = none := by simp [claimed?, hbefore, herror, hqueue]
      simp only [herror, hqueue] at hclaim
      split at hclaim
      · next hidle =>
        cases hclaim
        exact h.leave hw hphase hnone (.inr ⟨hqueue, hidle⟩)
      · cases hclaim
    | cons source queue =>
      have hsome : p.claimed? i = some (i, source) := by simp [claimed?, hbefore, herror, hqueue]
      simp only [herror, hqueue, Option.some.injEq] at hclaim
      subst hclaim
      rw [observe_claim hw hphase (v := { phase := .claimed source }) rfl rfl, hsome]
      apply h.replace hw (v := { phase := .claimed source })
      constructor
      · rfl
      · constructor <;> simp
      · exact (List.append_nil _).trans hqueue
      · intro s
        rw [hphase]
        rfl
      · intro x
        rw [hphase]
        rfl
      · exact h.error
      · rw [hphase]
        rfl
      · intro x hx hexited
        -- Before this step nobody could have left: there is no error, and the queue is not empty.
        rcases List.mem_or_eq_of_mem_set hx with hx | rfl
        · rcases h.exited x hx hexited with hsome | ⟨hempty, -⟩
          · rw [herror] at hsome
            cases hsome
          · rw [hqueue] at hempty
            cases hempty
        · cases hexited
      · exact h.exhausted

theorem beginRead_source {source : Source} {read : ActiveRead α}
    (h : beginRead a source = .ok read) : read.source = source := by
  unfold beginRead at h
  cases hcreate : Reader.create (α := α) a.tree source a.options with
  | error e =>
    rw [hcreate] at h
    cases h
  | ok reader =>
    simp only [hcreate, bind, Except.bind] at h
    cases hstart : Reader.start a.tree reader with
    | error e reader' =>
      simp only [hstart] at h
      cases h
    | ok found reader' =>
      simp only [hstart] at h
      cases h
      rfl

theorem Agrees.start (h : Agrees a sources log p) (hw : p.workers[i]? = some w) {source : Source}
    (hphase : w.phase = .claimed source) :
    Agrees a sources (log ++ p.observe (.step i) (p.start a i source)) (p.start a i source) := by
  have hload : w.phase.load = 1 := by
    rw [hphase]
    rfl
  unfold Pool.start
  cases hbegin : beginRead (α := α) a source with
  | error e =>
    refine h.goes_on hw (v := { phase := .failed source e }) hload rfl ?_ ?_ ?_ p.dumped
    · constructor <;> simp
    · rw [hphase]
      rfl
    · simp [hphase, Phase.thrown?]
  | ok read =>
    have hsource := beginRead_source hbegin
    refine h.goes_on hw (v := { phase := .started read }) hload rfl ?_ ?_ ?_ p.dumped
    · constructor
      · rintro read' (heq | heq)
        · cases heq
          rw [hsource]
          exact .begun hbegin
        · cases heq
      · simp
    · rw [hphase]
      exact congrArg some hsource
    · simp [hphase, Phase.thrown?]

theorem Agrees.reads {read : ActiveRead α} (h : Agrees a sources log p) (hw : p.workers[i]? = some w)
    (hphase : w.phase = .started read ∨ w.phase = .reading read) : ReadOf a read.source read :=
  (h.orderly w (List.mem_of_getElem? hw)).reads read hphase

theorem Agrees.register {read : ActiveRead α} (h : Agrees a sources log p)
    (hw : p.workers[i]? = some w) (hphase : w.phase = .started read) :
    Agrees a sources (log ++ p.observe (.step i) (p.register i read)) (p.register i read) := by
  have hread := h.reads hw (.inl hphase)
  refine h.goes_on hw (v := ⟨.reading read, _⟩) ?_ rfl ?_ ?_ ?_ p.dumped
  · rw [hphase]
    rfl
  · constructor
    · rintro read' (heq | heq)
      · cases heq
      · cases heq
        exact hread
    · exact fun _ => ⟨read, .inl rfl⟩
  · rw [hphase]
    rfl
  · simp [hphase, Phase.thrown?]

/-- A reader is moved on or a record counted. -/
theorem Agrees.reads_on {read read' : ActiveRead α} (h : Agrees a sources log p)
    (hw : p.workers[i]? = some w) (hphase : w.phase = .reading read)
    (hread : ReadOf a read.source read') (hsource : read'.source = read.source)
    (dumped : List Bytes) :
    Agrees a sources
      (log ++ p.observe (.step i) { p.put i { w with phase := .reading read' } with dumped })
      { p.put i { w with phase := .reading read' } with dumped } := by
  refine h.goes_on hw (v := { w with phase := .reading read' }) ?_ rfl ?_ ?_ ?_ dumped
  · rw [hphase]
    rfl
  · constructor
    · rintro read'' (heq | heq)
      · cases heq
      · cases heq
        rw [hsource]
        exact hread
    · exact fun _ => ⟨read', .inl rfl⟩
  · rw [hphase]
    exact congrArg some hsource
  · simp [hphase, Phase.thrown?]

theorem Agrees.breaks {read : ActiveRead α} (h : Agrees a sources log p)
    (hw : p.workers[i]? = some w) (hphase : w.phase = .reading read) (read' : ActiveRead α)
    (hsource : read'.source = read.source) (cause : Error) :
    Agrees a sources (log ++ p.observe (.step i) (p.put i { w with phase := .broken read' cause }))
      (p.put i { w with phase := .broken read' cause }) := by
  refine h.goes_on hw (v := { w with phase := .broken read' cause }) ?_ rfl ?_ ?_ ?_ p.dumped
  · rw [hphase]
    rfl
  · constructor
    · simp
    · exact fun _ => ⟨read', .inr ⟨cause, rfl⟩⟩
  · rw [hphase]
    exact congrArg some hsource
  · simp [hphase, Phase.thrown?]

/-- A read that has found no further record is tallied. -/
theorem Agrees.finish {read : ActiveRead α} (h : Agrees a sources log p)
    (hw : p.workers[i]? = some w) (hphase : w.phase = .reading read)
    (hlast : read.last = .finished) :
    Agrees a sources (log ++ p.observe (.step i) (p.finish i read)) (p.finish i read) := by
  have hload : w.phase.load = 1 := by
    rw [hphase]
    rfl
  have hread := h.reads hw (.inr hphase)
  rw [observe_step hw hload (v := { phase := .released }) rfl]
  apply h.replace hw (v := { phase := .released })
  constructor
  · rfl
  · constructor <;> simp
  · exact List.append_nil _
  · intro s
    rw [hphase]
    change (read.source :: p.tallies.map Tally.source).count s +
      (p.failures.map Prod.fst).count s + 0 = _ + _ + [read.source].count s + 0
    rw [List.count_cons, List.count_singleton]
    omega
  · intro x
    rw [hphase]
    rfl
  · exact h.error
  · rw [hload]
    rfl
  · intro x hx hexited
    exact .inl (h.error_of_exited hw hload (by simp) x hx hexited)
  · intro tally htally
    rcases List.mem_cons.1 htally with rfl | htally
    · exact ⟨read, hread, hlast, rfl, rfl⟩
    · exact h.exhausted tally htally

theorem Agrees.goOn {read : ActiveRead α} (h : Agrees a sources log p)
    (hw : p.workers[i]? = some w) (hphase : w.phase = .reading read) :
    Agrees a sources (log ++ p.observe (.step i) (p.goOn a i w read)) (p.goOn a i w read) := by
  have hread := h.reads hw (.inr hphase)
  have hturn (hdue : read.last = .unfinished ∨ read.last = .approached) :
      Agrees a sources (log ++ p.observe (.step i) (p.takeTurn a i w read))
        (p.takeTurn a i w read) := by
    unfold Pool.takeTurn
    cases hrun : Reader.turn a.tree read.last read.reader with
    | ok last reader => exact h.reads_on hw hphase (hread.turned hdue hrun) rfl p.dumped
    | error e reader => exact h.breaks hw hphase { read with reader } rfl e
  unfold Pool.goOn
  cases hlast : read.last with
  | record =>
    have hcount := h.reads_on hw hphase (hread.counted hlast) rfl
    cases hdump : a.dump with
    | false => exact hcount p.dumped
    | true =>
      simp only [if_true]
      unfold Pool.countAndDump
      cases hcurrent : read.reader.current with
      | ok record => exact hcount _
      | error e => exact h.breaks hw hphase read rfl e
  | finished => exact h.finish hw hphase hlast
  | unfinished => exact hturn (.inl hlast)
  | approached => exact hturn (.inr hlast)

theorem Agrees.gives_up {read : ActiveRead α} {cause : Error} (h : Agrees a sources log p)
    (hw : p.workers[i]? = some w) (hphase : w.phase = .broken read cause) :
    Agrees a sources
      (log ++ p.observe (.step i) (p.put i { phase := .failed read.source cause }))
      (p.put i { phase := .failed read.source cause }) := by
  refine h.goes_on hw (v := { phase := .failed read.source cause }) ?_ rfl ?_ ?_ ?_ p.dumped
  · rw [hphase]
    rfl
  · constructor <;> simp
  · rw [hphase]
    rfl
  · simp [hphase, Phase.thrown?]

/-- A failure is recorded, and the first one is the error of the pool. -/
theorem Agrees.fail {source : Source} {cause : Error} (h : Agrees a sources log p)
    (hw : p.workers[i]? = some w) (hphase : w.phase = .failed source cause) :
    Agrees a sources (log ++ p.observe (.step i) (p.fail i source cause)) (p.fail i source cause) := by
  have hload : w.phase.load = 1 := by
    rw [hphase]
    rfl
  rw [observe_step hw hload (v := { phase := .released }) rfl]
  apply h.replace hw (v := { phase := .released })
  constructor
  · rfl
  · constructor <;> simp
  · exact List.append_nil _
  · intro s
    rw [hphase]
    change (p.tallies.map Tally.source).count s +
      (source :: p.failures.map Prod.fst).count s + 0 = _ + _ + [source].count s + 0
    rw [List.count_cons, List.count_singleton]
    omega
  · intro x
    rw [hphase]
    change ((source, cause) :: p.failures).count x + 0 = _ + [(source, cause)].count x + 0
    rw [List.count_cons, List.count_singleton]
  · change p.error?.or (some cause) = ((source, cause) :: p.failures).getLast?.map Prod.snd
    rw [h.error]
    cases hfailures : p.failures with
    | nil => rfl
    | cons failure rest => simp [List.getLast?_cons]
  · rw [hload]
    rfl
  · intro x hx hexited
    have hsome := h.error_of_exited hw hload (by simp) x hx hexited
    refine .inl ?_
    change (p.error?.or (some cause)).isSome
    simp
  · exact h.exhausted

theorem Agrees.release (h : Agrees a sources log p) (hw : p.workers[i]? = some w)
    (hphase : w.phase = .released) :
    Agrees a sources (log ++ p.observe (.step i) (p.release i)) (p.release i) := by
  have hload : w.phase.load = 1 := by
    rw [hphase]
    rfl
  have hpos := busy_pos_of_load h.busy hw hload
  rw [observe_step hw hload (v := { phase := .waiting }) rfl]
  apply h.replace hw (v := { phase := .waiting })
  constructor
  · rfl
  · constructor <;> simp
  · exact List.append_nil _
  · intro s
    rw [hphase]
    rfl
  · intro x
    rw [hphase]
    rfl
  · exact h.error
  · change p.busy - 1 + _ = p.busy + 0
    omega
  · intro x hx hexited
    exact .inl (h.error_of_exited hw hload (by simp) x hx hexited)
  · exact h.exhausted

/-- Whatever a worker does next, the log and the pool agree about it. -/
theorem Agrees.step (h : Agrees a sources log p) {p' : Pool α} (hstep : p.step a i = some p') :
    Agrees a sources (log ++ p.observe (.step i) p') p' := by
  unfold Pool.step at hstep
  obtain ⟨w, hw, hstep⟩ := Option.bind_eq_some_iff.1 hstep
  cases hphase : w.phase with
  | waiting =>
    rw [hphase] at hstep
    exact h.claim hw hphase hstep
  | claimed source =>
    rw [hphase] at hstep
    cases hstep
    exact h.start hw hphase
  | started read =>
    rw [hphase] at hstep
    cases hstep
    exact h.register hw hphase
  | reading read =>
    rw [hphase] at hstep
    cases hstep
    exact h.goOn hw hphase
  | broken read cause =>
    rw [hphase] at hstep
    cases hstep
    exact h.gives_up hw hphase
  | failed source cause =>
    rw [hphase] at hstep
    cases hstep
    exact h.fail hw hphase
  | released =>
    rw [hphase] at hstep
    cases hstep
    exact h.release hw hphase
  | exited =>
    rw [hphase] at hstep
    cases hstep

omit [RecordType α] in
/-- A split concerns a worker whose reader is under control. -/
theorem controlled?_eq_some {range : OffsetRange} {read : ActiveRead α}
    (h : p.controlled? i = some (range, read)) :
    ∃ w, p.workers[i]? = some w ∧ w.controlled? = some range ∧ w.phase.read? = some read := by
  unfold Pool.controlled? at h
  obtain ⟨w, hw, h⟩ := Option.bind_eq_some_iff.1 h
  obtain ⟨range', hrange, h⟩ := Option.bind_eq_some_iff.1 h
  obtain ⟨read', hread, h⟩ := Option.bind_eq_some_iff.1 h
  cases h
  exact ⟨w, hw, hrange, hread⟩

structure Divided (a : Assignment) (w v : Worker α) : Prop where
  orderly : v.Orderly a
  source_eq : v.phase.source? = w.phase.source?
  thrown_eq : v.phase.thrown? = w.phase.thrown?
  load_eq : w.phase.load = 1 ∧ v.phase.load = 1

theorem divided_withReader {read : ActiveRead α} (h : w.Orderly a) (hread : w.phase.read? = some read)
    (hcontrolled : w.controlled?.isSome) (fraction : UInt64) :
    Divided a w { w with phase := w.phase.withReader (read.reader.trySplit fraction).2 } := by
  rcases w with ⟨phase, controlled?⟩
  obtain ⟨read', hphase | ⟨cause, hphase⟩⟩ := h.controlled hcontrolled
  · have hof := h.reads read' (.inr hphase)
    subst hphase
    cases hread
    refine ⟨⟨?_, fun _ => ⟨_, .inl rfl⟩⟩, rfl, rfl, rfl, rfl⟩
    rintro read' (heq | heq)
    · cases heq
    · cases heq
      exact hof.split fraction
  · subst hphase
    cases hread
    exact ⟨⟨by simp [Phase.withReader], fun _ => ⟨_, .inr ⟨cause, rfl⟩⟩⟩, rfl, rfl, rfl, rfl⟩

/-- A split leaves the read what it is, and what it gives up is queued. -/
theorem Agrees.split (h : Agrees a sources log p) (i : Nat) (fraction : UInt64) :
    Agrees a sources (log ++ p.observe (.split i fraction) (p.split i fraction))
      (p.split i fraction) := by
  change Agrees a sources (log ++ { queued := (p.givesUp? i fraction).toList }) _
  cases hcontrolled : p.controlled? i with
  | none =>
    have hsame : p.split i fraction = p := by
      unfold Pool.split
      rw [hcontrolled]
      cases p.workers[i]? <;> rfl
    have hnone : p.givesUp? i fraction = none := by simp [givesUp?, hcontrolled]
    rw [hsame, hnone, Option.toList_none, Log.append_empty]
    exact h
  | some found =>
    rcases found with ⟨range, read⟩
    obtain ⟨w, hw, hrange, hread⟩ := controlled?_eq_some hcontrolled
    have horderly := h.orderly w (List.mem_of_getElem? hw)
    have hdivided := divided_withReader horderly hread (by rw [hrange]; rfl) fraction
    have hsplit : p.split i fraction =
        { p.put i { w with phase := w.phase.withReader (read.reader.trySplit fraction).2 } with
          queue := p.queue ++ (p.givesUp? i fraction).toList } := by
      unfold Pool.split givesUp?
      rw [hw, hcontrolled]
      rfl
    rw [hsplit]
    generalize { w with phase := w.phase.withReader (read.reader.trySplit fraction).2 } = v at hdivided ⊢
    obtain ⟨hload, hload'⟩ := hdivided.load_eq
    apply h.replace hw (v := v)
    constructor
    · rfl
    · exact hdivided.orderly
    · rfl
    · intro s
      rw [hdivided.source_eq]
      rfl
    · intro x
      rw [hdivided.thrown_eq]
      rfl
    · exact h.error
    · rw [hload, hload']
      rfl
    · intro x hx hexited
      have hstays : v.phase ≠ .exited := by
        intro hexited
        simp [hexited, Phase.load] at hload'
      exact .inl (h.error_of_exited hw hload hstays x hx hexited)
    · exact h.exhausted

/-- Whatever happens next, the log and the pool agree about it. -/
theorem Agrees.perform (h : Agrees a sources log p) {event : Event} {p' : Pool α}
    (hevent : p.perform a event = some p') :
    Agrees a sources (log ++ p.observe event p') p' := by
  cases event with
  | step i => exact h.step hevent
  | split i fraction =>
    cases hevent
    exact h.split i fraction

/-- After every schedule the log agrees with the pool. -/
theorem Agrees.follow (h : Agrees a sources log p) {schedule : List Event} {p' : Pool α}
    (hrun : p.follow a schedule = some p') :
    Agrees a sources (log ++ logOf a schedule p) p' := by
  induction schedule generalizing p log with
  | nil =>
    cases hrun
    rw [logOf, Log.append_empty]
    exact h
  | cons event rest ih =>
    simp only [Pool.follow, List.foldlM_cons] at hrun
    obtain ⟨p₁, hevent, hrest⟩ := Option.bind_eq_some_iff.1 hrun
    rw [logOf, hevent, ← Log.append_assoc]
    exact ih (h.perform hevent) hrest

theorem agrees_ofSources (a : Assignment) (sources : List Source) {n : Nat} (hn : 0 < n) :
    Agrees a sources {} (ofSources n sources : Pool α) := by
  constructor
  · rw [ofSources, Ne, List.replicate_eq_nil_iff]
    omega
  · intro w hw
    rw [List.eq_of_mem_replicate hw]
    constructor <;> simp
  · simp [ofSources]
  · simp [ofSources, Phase.source?]
  · simp [ofSources, Phase.thrown?]
  · rfl
  · simp [ofSources, Phase.load]
  · intro w hw hexited
    rw [List.eq_of_mem_replicate hw] at hexited
    cases hexited
  · simp [ofSources]

/-- A worker that has a source in hand can go on. -/
theorem step_isSome (a : Assignment) (hw : p.workers[i]? = some w) (hload : w.phase.load = 1) :
    (p.step a i).isSome := by
  unfold Pool.step
  simp only [hw, Option.bind_eq_bind, Option.bind_some]
  cases hphase : w.phase with
  | waiting | exited =>
    rw [hphase] at hload
    cases hload
  | claimed | started | reading | broken | failed | released => rfl

/-- As long as a worker is there, one of them can go on. -/
theorem Agrees.goes_somewhere (h : Agrees a sources log p) (hover : ¬p.isOver) :
    ∃ i, (p.step a i).isSome := by
  by_cases hbusy : ∃ w ∈ p.workers, w.phase.load = 1
  · obtain ⟨w, hmem, hload⟩ := hbusy
    obtain ⟨i, hw⟩ := List.getElem?_of_mem hmem
    exact ⟨i, step_isSome a hw hload⟩
  · have hidle : ∀ w ∈ p.workers, w.phase.load = 0 := by
      intro w hmem
      have hne : ¬w.phase.load = 1 := fun hload => hbusy ⟨w, hmem, hload⟩
      cases hphase : w.phase with
      | waiting | exited => rfl
      | _ =>
        rw [hphase] at hne
        exact absurd rfl hne
    have hnone : p.busy = 0 := by
      rw [h.busy]
      apply List.sum_eq_zero_iff_forall_eq_nat.2
      intro n hn
      obtain ⟨w, hmem, rfl⟩ := List.mem_map.1 hn
      exact hidle w hmem
    rw [isOver_iff] at hover
    obtain ⟨w, hw⟩ := Classical.not_forall.1 hover
    obtain ⟨hmem, hstays⟩ := Classical.not_imp.1 hw
    obtain ⟨i, hw⟩ := List.getElem?_of_mem hmem
    have hphase : w.phase = .waiting := by
      have hload := hidle w hmem
      cases hphase : w.phase with
      | waiting => rfl
      | exited => exact absurd hphase hstays
      | _ =>
        rw [hphase] at hload
        cases hload
    refine ⟨i, ?_⟩
    unfold Pool.step
    simp only [hw, Option.bind_eq_bind, Option.bind_some, hphase]
    unfold Pool.claim
    cases p.error? with
    | some e => rfl
    | none =>
      cases p.queue with
      | nil =>
        simp only [hnone, if_true]
        rfl
      | cons source queue => rfl

/-- What comes of a pool, as the log of its schedule tells it. -/
structure Completes (a : Assignment) (sources : List Source) (log : Log) (p : Pool α) : Prop where
  /-- The busy workers are those that have taken a source and not yet let go of it. -/
  busy : p.busy = (p.workers.map fun w => w.phase.load).sum
  /-- Only a reader that is alive, and that its worker is reading from, is under control. -/
  controlled : ∀ w ∈ p.workers, w.controlled?.isSome →
    ∃ read, w.phase = .reading read ∨ ∃ cause, w.phase = .broken read cause
  /-- Each source is taken from the queue by one worker, in the order in which they came. -/
  taken : sources ++ log.queued = log.claims.map Prod.snd ++ p.queue
  /-- Without an error nobody leaves while a source is queued or being read. -/
  exits : ∀ w ∈ p.workers, w.phase = .exited → p.error? = none →
    p.queue = [] ∧ ∀ v ∈ p.workers, v.phase.load = 0
  /-- The workers never all wait for one another. -/
  goes_on : ¬p.isOver → ∃ i, (p.step a i).isSome
  /-- Without an error all sources have been taken once, read to their ends and tallied once. -/
  returns : p.isOver → ∀ tallies, p.outcome = .ok tallies → log.thrown = [] ∧ p.queue = [] ∧
    log.claims.map Prod.snd = sources ++ log.queued ∧
    (tallies.map Tally.source).Perm (sources ++ log.queued) ∧
    ∀ tally ∈ tallies, tally.Exhausted α a
  /-- What was thrown has been recorded, and the first record is the error. -/
  fails : p.isOver → log.thrown ≠ [] → ∃ first, p.failures.getLast? = some first ∧
    p.outcome = .error first.2 ∧ p.failures.Perm log.thrown

/-- Once all workers have left, all sources that were taken have been tallied or have failed,
and all failures have been recorded. -/
theorem Agrees.count_of_isOver (h : Agrees a sources log p) (hover : p.isOver) :
    (∀ s, (log.claims.map Prod.snd).count s =
      (p.tallies.map Tally.source).count s + (p.failures.map Prod.fst).count s) ∧
    ∀ x, log.thrown.count x = p.failures.count x := by
  constructor
  · intro s
    have hnone := sum_of_isOver hover (fun phase => phase.source?.toList.count s) rfl
    rw [h.claimed s, hnone, Nat.add_zero]
  · intro x
    have hnone := sum_of_isOver hover (fun phase => phase.thrown?.toList.count x) rfl
    rw [h.thrown x, hnone, Nat.add_zero]

/-- Without an error, all sources that were queued have been tallied, each of them once. -/
theorem Agrees.returns (h : Agrees a sources log p) (hover : p.isOver) (hnone : p.error? = none) :
    log.thrown = [] ∧ p.queue = [] ∧ log.claims.map Prod.snd = sources ++ log.queued ∧
      (p.tallies.map Tally.source).Perm (sources ++ log.queued) := by
  obtain ⟨hclaimed, hthrown⟩ := h.count_of_isOver hover
  have hfailures : p.failures = [] := by
    have herror := h.error
    rw [hnone, eq_comm, Option.map_eq_none_iff] at herror
    exact List.getLast?_eq_none_iff.1 herror
  obtain ⟨w, hmem⟩ := List.exists_mem_of_ne_nil _ h.staffed
  have hqueue : p.queue = [] := by
    rcases h.exited w hmem (isOver_iff.1 hover w hmem) with hsome | ⟨hqueue, -⟩
    · rw [hnone] at hsome
      cases hsome
    · exact hqueue
  have hclaims := h.queue
  rw [hqueue, List.append_nil] at hclaims
  refine ⟨?_, hqueue, hclaims.symm, ?_⟩
  · apply List.eq_nil_iff_forall_not_mem.2
    intro x hx
    have hcount := List.count_pos_iff.2 hx
    rw [hthrown x, hfailures] at hcount
    cases hcount
  · rw [hclaims]
    apply List.perm_iff_count.2
    intro s
    rw [hclaimed s, hfailures]
    rfl

/-- If something was thrown, the first failure that was recorded is the error. -/
theorem Agrees.fails (h : Agrees a sources log p) (hover : p.isOver) (hne : log.thrown ≠ []) :
    ∃ first, p.failures.getLast? = some first ∧ p.outcome = .error first.2 ∧
      p.failures.Perm log.thrown := by
  obtain ⟨-, hthrown⟩ := h.count_of_isOver hover
  have hperm : p.failures.Perm log.thrown :=
    List.perm_iff_count.2 fun x => (hthrown x).symm
  have herror := h.error
  cases hfirst : p.failures.getLast? with
  | none =>
    have hnil := List.getLast?_eq_none_iff.1 hfirst
    rw [hnil] at hperm
    exact absurd (List.nil_perm.1 hperm) hne
  | some first =>
    rw [hfirst] at herror
    refine ⟨first, rfl, ?_, hperm⟩
    unfold outcome
    rw [herror]
    rfl

theorem Agrees.completes (h : Agrees a sources log p) : Completes a sources log p := by
  constructor
  · exact h.busy
  · intro w hmem
    exact (h.orderly w hmem).controlled
  · exact h.queue
  · intro w hmem hexited hnone
    rcases h.exited w hmem hexited with hsome | ⟨hqueue, hidle⟩
    · rw [hnone] at hsome
      cases hsome
    · rw [h.busy, List.sum_eq_zero_iff_forall_eq_nat] at hidle
      exact ⟨hqueue, fun v hv => hidle _ (List.mem_map_of_mem hv)⟩
  · exact h.goes_somewhere
  · intro hover tallies houtcome
    unfold outcome at houtcome
    cases herror : p.error? with
    | some e =>
      rw [herror] at houtcome
      cases houtcome
    | none =>
      rw [herror] at houtcome
      cases houtcome
      obtain ⟨hthrown, hqueue, hclaims, hperm⟩ := h.returns hover herror
      refine ⟨hthrown, hqueue, hclaims, ?_, ?_⟩
      · rw [List.map_reverse]
        exact (List.reverse_perm _).trans hperm
      · intro tally htally
        exact h.exhausted tally (List.mem_reverse.1 htally)
  · exact h.fails

/-- Whatever the files and however the workers and the splits are interleaved, the pool
completes everything or reports an error. -/
theorem completes_of_follow (a : Assignment) (sources : List Source) (n : Nat)
    {schedule : List Event} {p : Pool α}
    (hrun : (ofSources (max n 1) sources).follow a schedule = some p) :
    Completes a sources (logOf a schedule (ofSources (max n 1) sources : Pool α)) p := by
  have hstart : Agrees a sources {} (ofSources (max n 1) sources : Pool α) :=
    agrees_ofSources a sources (by omega)
  have hagrees := hstart.follow hrun
  rw [Log.empty_append] at hagrees
  exact hagrees.completes

def birdsSchedule : List Event :=
  List.replicate 3 (.step 0) ++ .split 0 0x3fe0000000000000 :: List.replicate 7 (.step 1) ++
    List.replicate 7 (.step 0) ++ [.step 1]

theorem completes_birds : ∃ p : Pool Bird,
    (ofSources (max 2 1) [Plan.birdsSource]).follow ⟨Plan.birdsTree, .standard, false⟩
      birdsSchedule = some p ∧ p.isOver ∧ p.error? = none ∧ p.tallies.length = 2 ∧
    Completes ⟨Plan.birdsTree, .standard, false⟩ [Plan.birdsSource]
      (logOf ⟨Plan.birdsTree, .standard, false⟩ birdsSchedule
        (ofSources (max 2 1) [Plan.birdsSource] : Pool Bird)) p := by
  have hrun : ((ofSources (max 2 1) [Plan.birdsSource] : Pool Bird).follow
      ⟨Plan.birdsTree, .standard, false⟩ birdsSchedule).any
      (fun p => p.isOver && p.error? == none && p.tallies.length == 2) = true := by
    decide +kernel
  obtain ⟨p, hrun, hends⟩ := (Option.any_eq_true ..).1 hrun
  simp only [Bool.and_eq_true, beq_iff_eq] at hends
  obtain ⟨⟨hover, hnone⟩, htallies⟩ := hends
  exact ⟨p, hrun, hover, hnone, htallies, completes_of_follow _ _ _ hrun⟩

end Pool
end BlockContainer
