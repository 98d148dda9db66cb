import BlockContainer.Error
import BlockContainer.Range.SplitPoint

/-! # Range trackers

A tracker arbitrates between a reader, which reports the offset of each record before it
returns it, and a controller, which may take the far end of the range away. A record at a
split point is refused once it lies at or past the stop offset; a split is refused unless
it falls strictly between the last record and the stop offset. Each operation is one step.
-/
namespace BlockContainer

structure OffsetRange where
  start : UInt64
  stop : UInt64
deriving DecidableEq, Repr

/-- Numbers that progress can be told in: exact ones to reason with, rounded ones to show. -/
class Measure (α : Type) where
  ofOffset : UInt64 → α
  add : α → α → α
  div : α → α → α
  atMost : α → α → Bool

instance : Measure Float where
  ofOffset := UInt64.toFloat
  add := (· + ·)
  div := (· / ·)
  atMost a b := a ≤ b

namespace Measure

variable {α : Type} [Measure α]

def zero : α := ofOffset 0
def one : α := ofOffset 1

def clamp (x : α) : α := if !atMost zero x then zero else if !atMost x one then one else x

end Measure

structure RangeTracker where
  start : UInt64
  originalStop : UInt64
  stop : UInt64
  last? : Option UInt64 := none
  done : Bool := false
deriving DecidableEq, Repr

namespace RangeTracker

def ofRange (start stop : UInt64) : RangeTracker := { start, originalStop := stop, stop }

def create (start stop : UInt64) : Except Error RangeTracker :=
  if stop < start then .error (.argument (.rangeReversed start stop)) else .ok (ofRange start stop)

/-- Reports the offset of the next record. A refusal means that the reader must finish. -/
def tryReturn (atSplitPoint : Bool) (offset : UInt64) : EStateM Error RangeTracker Bool := do
  let t ← get
  if t.last? = none ∧ !atSplitPoint then throw (.misuse (.firstRecordNotSplitPoint offset))
  if let some last := t.last? then
    if offset < last then throw (.misuse (.recordsOutOfOrder offset last))
  if atSplitPoint ∧ t.stop ≤ offset then
    set { t with done := true }
    return false
  set { t with last? := some offset }
  return true

def markDone (t : RangeTracker) : RangeTracker := { t with done := true }

/-- The offset to cut at, if the tracker agrees to a cut there. -/
def splitOffset? (fraction : UInt64) (t : RangeTracker) : Option UInt64 := do
  let f ← Dyadic.ofFraction? fraction
  if t.done then none
  let offset := splitPoint t.start t.originalStop f
  if offset ≤ t.start then none
  if let some last := t.last? then
    if offset ≤ last then none
  if t.stop ≤ offset then none
  return offset

def trySplit (fraction : UInt64) (t : RangeTracker) : Option OffsetRange × RangeTracker :=
  match t.splitOffset? fraction with
  | none => (none, t)
  | some offset => (some ⟨offset, t.stop⟩, { t with stop := offset })

def fractionConsumed (α : Type) [Measure α] (t : RangeTracker) : α :=
  if t.done then Measure.one
  else match t.last? with
    | none => Measure.zero
    | some last =>
      if t.stop = t.start then Measure.zero
      else Measure.clamp
        (Measure.div (Measure.ofOffset (last - t.start)) (Measure.ofOffset (t.stop - t.start)))

def text (t : RangeTracker) : Bytes :=
  s!"OffsetRangeTracker[{t.start.toNat}, {t.stop.toNat})" ++
  (match t.last? with
    | none => []
    | some last => (s!" last record at {last.toNat}" : Bytes)) ++
  (if t.done then (" done" : Bytes) else [])

end RangeTracker
end BlockContainer
