import BlockContainer.Block.Reader
import BlockContainer.Record.Typed
import BlockContainer.Source.Basic

/-! # Reading the records of a range

A reader of one file decodes the records of the blocks of its range one by one. The rest
of the range can be split off at any time, also while a record is current.
-/
namespace BlockContainer

structure ContainerReader (α : Type) where
  source : Source
  blocks : BlockReader
  decoding? : Option (Decoding α) := none
  /-- How many records of the block are still to be decoded. -/
  recordsLeft : Nat := 0
  current? : Option α := none
  started : Bool := false

namespace ContainerReader

variable {α : Type}

def create (t : FileTree) (source : Source) (scanSize : UInt64) :
    Except Error (ContainerReader α) := do
  let blocks ← BlockReader.create t source.path source.start source.stop scanSize.toNat
  return { source, blocks }

def follow (t : FileTree) (r : ContainerReader α) : ContainerReader α :=
  { r with blocks := r.blocks.follow t }

abbrev Step (α β : Type) := EStateM Error (ContainerReader α) β

def onBlocks {β : Type} (m : EStateM Error BlockReader β) : Step α β :=
  focus blocks (fun r blocks => { r with blocks }) id m

/-- Makes sure that there are records left to decode, if the range has any. -/
def refill : Step α Bool := do
  if (← get).recordsLeft ≠ 0 then return true
  else if ← onBlocks BlockReader.readNext then do
    modify fun r => { r with recordsLeft := r.blocks.recordCount.toInt.toNat }
    return true
  else do
    modify fun r => { r with current? := none }
    return false

def decodeOne : Step α Unit := do
  let r ← get
  let _ ← check r.blocks.blockDecoder
  match r.decoding? with
  | none => throw (.misuse .decoderMissing)
  | some decoding =>
    let record ← onBlocks (BlockReader.decode decoding)
    modify fun r => { r with current? := some record, recordsLeft := r.recordsLeft - 1 }

def advance : Step α Bool := do
  ensure (← get).started (.misuse (.notStarted .container))
  if ← refill then do
    decodeOne
    return true
  else return false

def start [RecordType α] (t : FileTree) : Step α Bool := do
  let r ← get
  ensure (!r.started) (.misuse (.startedTwice .container))
  modify fun r => { r with started := true }
  onBlocks (BlockReader.openFile t)
  let header := (← get).blocks.header
  let decoding ← check ((RecordType.decoding r.source.binding header).mapError .configuration)
  modify fun r => { r with decoding? := some decoding }
  advance

def current (r : ContainerReader α) : Except Error α :=
  match r.current? with
  | some record => .ok record
  | none => .error (.misuse .noCurrentRecord)

def fractionConsumed (β : Type) [Measure β] (r : ContainerReader α) : β :=
  r.blocks.tracker.fractionConsumed β

def currentSource (r : ContainerReader α) : Source :=
  r.source.subrange r.source.path r.blocks.tracker.start r.blocks.tracker.stop

def trySplit (fraction : UInt64) (r : ContainerReader α) : Option Source × ContainerReader α :=
  let (range?, blocks) := r.blocks.trySplit fraction
  (range?.map fun range => r.source.subrange r.source.path range.start range.stop,
    { r with blocks })

def close (r : ContainerReader α) : ContainerReader α :=
  { r with blocks := r.blocks.close, current? := none }

end ContainerReader
end BlockContainer
