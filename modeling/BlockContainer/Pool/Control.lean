import BlockContainer.Pool.Basic

/-! # Splitting stragglers

The controller of a pool may split the reader of a worker while it is under control; what
the reader gives up goes to the end of the queue. It does so when workers are idle and
the queue is empty, and cuts each reader in the middle of what it has before it. Fractions
count from the range that the reader had when it was put under control.

A schedule says who goes next. The controller is free to split any reader at any
fraction between any two steps.
-/
namespace BlockContainer

variable {α : Type}

/-- The middle between the last record and the end, as a fraction of the controlled range. -/
def stragglerCut (controlled : OffsetRange) (reader : Reader α) : UInt64 :=
  let current := reader.currentSource
  let consumed := reader.fractionConsumed Float
  let position := current.start.toFloat + consumed * (current.stop - current.start).toFloat
  let midpoint := (position + current.stop.toFloat) / 2
  ((midpoint - controlled.start.toFloat) / (controlled.stop - controlled.start).toFloat).toBits

namespace Pool

def controlled? (i : Nat) (p : Pool α) : Option (OffsetRange × ActiveRead α) := do
  let w ← p.workers[i]?
  let range ← w.controlled?
  let read ← w.phase.read?
  return (range, read)

def split (i : Nat) (fraction : UInt64) (p : Pool α) : Pool α :=
  match p.workers[i]?, p.controlled? i with
  | some w, some (_, read) =>
    let (residual?, reader) := read.reader.trySplit fraction
    let p := p.put i { w with phase := w.phase.withReader reader }
    { p with queue := p.queue ++ residual?.toList }
  | _, _ => p

/-- Splits the reader of a worker for one of the idle workers, and tells how many are left. -/
def splitStraggler (idle : Nat) (i : Nat) (p : Pool α) : Nat × Pool α :=
  match p.controlled? i with
  | some (range, read) =>
    if idle = 0 ∨ range.stop ≤ range.start then (idle, p)
    else
      let p' := p.split i (stragglerCut range read.reader)
      (if p.queue.length < p'.queue.length then idle - 1 else idle, p')
  | none => (idle, p)

def splitStragglers (idle : Nat) : List Nat → Pool α → Nat × Pool α
  | [], p => (idle, p)
  | i :: rest, p =>
    let (idle, p) := splitStraggler idle i p
    splitStragglers idle rest p

def rebalance (p : Pool α) : Pool α :=
  if p.busy < p.workers.length ∧ p.queue = [] then
    (splitStragglers (p.workers.length - p.busy) (List.range p.workers.length) p).2
  else p

inductive Event where
  | step (worker : Nat)
  | split (worker : Nat) (fraction : UInt64)
deriving DecidableEq, Repr

def perform [RecordType α] (a : Assignment) (p : Pool α) : Event → Option (Pool α)
  | .step worker => p.step a worker
  | .split worker fraction => some (p.split worker fraction)

/-- The pool after a schedule, if each step in it is possible. -/
def follow [RecordType α] (a : Assignment) (schedule : List Event) (p : Pool α) :
    Option (Pool α) :=
  schedule.foldlM (perform a) p

/-- What happens next in a pool whose controller looks now and then. -/
inductive Move where
  | step (worker : Nat)
  | look
deriving DecidableEq, Repr

def make [RecordType α] (a : Assignment) (p : Pool α) : Move → Option (Pool α)
  | .step worker => p.step a worker
  | .look => some p.rebalance

def makeAll [RecordType α] (a : Assignment) (moves : List Move) (p : Pool α) : Option (Pool α) :=
  moves.foldlM (make a) p

def isOver (p : Pool α) : Bool :=
  p.workers.all fun w => match w.phase with
    | .exited => true
    | _ => false

end Pool
end BlockContainer
