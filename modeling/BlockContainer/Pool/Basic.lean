import BlockContainer.Reader.Turn

/-! # Pools of workers

Workers take sources from a queue, read them to their ends and tally the records. A pool
is what they share together with where each of them is. One step of a worker is what it
does without letting the others in between. A worker that finds the queue empty waits
while another one is busy, because a split may still queue a source. The first failure is
the failure of the pool, and no source is taken after it.
-/
namespace BlockContainer

variable {α : Type}

structure ActiveRead (α : Type) where
  source : Source
  reader : Reader α
  last : Turn
  records : Nat := 0

inductive Phase (α : Type) where
  | waiting
  | claimed (source : Source)
  | started (read : ActiveRead α)
  | reading (read : ActiveRead α)
  | broken (read : ActiveRead α) (cause : Error)
  | failed (source : Source) (cause : Error)
  | released
  | exited

def Phase.read? : Phase α → Option (ActiveRead α)
  | started read | reading read | broken read _ => some read
  | _ => none

def Phase.withReader (reader : Reader α) : Phase α → Phase α
  | started read => started { read with reader }
  | reading read => reading { read with reader }
  | broken read cause => broken { read with reader } cause
  | phase => phase

structure Worker (α : Type) where
  phase : Phase α := .waiting
  /-- The range that the reader had when it was put under control. -/
  controlled? : Option OffsetRange := none

instance : Inhabited (Worker α) := ⟨{}⟩

/-- What a read to the end came to: the source as queued, what splits left of it, its records. -/
structure Tally where
  source : Source
  rest : Source
  records : Nat
deriving DecidableEq

/-- Tallies, failures and dumped records stand newest first. -/
structure Pool (α : Type) where
  queue : List Source
  workers : List (Worker α)
  busy : Nat := 0
  tallies : List Tally := []
  failures : List (Source × Error) := []
  error? : Option Error := none
  dumped : List Bytes := []

structure Assignment where
  tree : FileTree
  options : Options
  dump : Bool

namespace Pool

def ofSources (workers : Nat) (queue : List Source) : Pool α where
  queue := queue
  workers := List.replicate workers {}

def put (i : Nat) (w : Worker α) (p : Pool α) : Pool α := { p with workers := p.workers.set i w }

/-- Takes a source or leaves; waits while neither is due. -/
def claim (i : Nat) (p : Pool α) : Option (Pool α) :=
  match p.error?, p.queue with
  | none, source :: queue =>
    some { p.put i { phase := .claimed source } with queue, busy := p.busy + 1 }
  | none, [] => if p.busy = 0 then some (p.put i { phase := .exited }) else none
  | some _, _ => some (p.put i { phase := .exited })

def beginRead [RecordType α] (a : Assignment) (source : Source) : Except Error (ActiveRead α) := do
  let reader ← Reader.create a.tree source a.options
  match Reader.start a.tree reader with
  | .ok found reader => return { source, reader, last := .ofFound found }
  | .error e _ => throw e

def start [RecordType α] (a : Assignment) (i : Nat) (source : Source) (p : Pool α) : Pool α :=
  match beginRead a source with
  | .ok read => p.put i { phase := .started read }
  | .error e => p.put i { phase := .failed source e }

def register (i : Nat) (read : ActiveRead α) (p : Pool α) : Pool α :=
  let current := read.reader.currentSource
  p.put i { phase := .reading read, controlled? := some ⟨current.start, current.stop⟩ }

def count (i : Nat) (w : Worker α) (read : ActiveRead α) (p : Pool α) : Pool α :=
  let read := { read with last := .unfinished, records := read.records + 1 }
  p.put i { w with phase := .reading read }

def countAndDump [RecordType α] (i : Nat) (w : Worker α) (read : ActiveRead α) (p : Pool α) :
    Pool α :=
  match read.reader.current with
  | .ok record => { p.count i w read with dumped := RecordType.text record :: p.dumped }
  | .error e => p.put i { w with phase := .broken read e }

def takeTurn [RecordType α] (a : Assignment) (i : Nat) (w : Worker α) (read : ActiveRead α)
    (p : Pool α) : Pool α :=
  match Reader.turn a.tree read.last read.reader with
  | .ok last reader => p.put i { w with phase := .reading { read with reader, last } }
  | .error e reader => p.put i { w with phase := .broken { read with reader } e }

def finish (i : Nat) (read : ActiveRead α) (p : Pool α) : Pool α :=
  { p.put i { phase := .released } with
    tallies := ⟨read.source, read.reader.currentSource, read.records⟩ :: p.tallies }

def goOn [RecordType α] (a : Assignment) (i : Nat) (w : Worker α) (read : ActiveRead α)
    (p : Pool α) : Pool α :=
  match read.last with
  | .record => if a.dump then p.countAndDump i w read else p.count i w read
  | .finished => p.finish i read
  | .unfinished | .approached => p.takeTurn a i w read

/-- Keeps the failure; it is the pool's if it is the first. -/
def fail (i : Nat) (source : Source) (cause : Error) (p : Pool α) : Pool α :=
  { p.put i { phase := .released } with
    failures := (source, cause) :: p.failures
    error? := p.error?.or (some cause) }

def release (i : Nat) (p : Pool α) : Pool α :=
  { p.put i { phase := .waiting } with busy := p.busy - 1 }

def step [RecordType α] (a : Assignment) (i : Nat) (p : Pool α) : Option (Pool α) := do
  let w ← p.workers[i]?
  match w.phase with
  | .waiting => p.claim i
  | .claimed source => some (p.start a i source)
  | .started read => some (p.register i read)
  | .reading read => some (p.goOn a i w read)
  | .broken read cause => some (p.put i { phase := .failed read.source cause })
  | .failed source cause => some (p.fail i source cause)
  | .released => some (p.release i)
  | .exited => none

def outcome (p : Pool α) : Except Error (List Tally) :=
  match p.error? with
  | some e => .error e
  | none => .ok p.tallies.reverse

end Pool
end BlockContainer
