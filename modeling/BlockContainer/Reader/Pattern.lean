import BlockContainer.Reader.Container

/-! # Reading the records of all files of a pattern

The files are read one after another in the order of their names. A file is passed once
its reader has found that it holds no further record.
-/
namespace BlockContainer

structure PatternReader (α : Type) where
  source : Source
  scanSize : UInt64
  files : List Bytes := []
  /-- The files that have not been passed, the present one first. -/
  ahead : List Bytes := []
  reader? : Option (ContainerReader α) := none
  started : Bool := false
  done : Bool := false

namespace PatternReader

variable {α : Type}

def create (source : Source) (scanSize : UInt64) : PatternReader α := { source, scanSize }

def follow (t : FileTree) (r : PatternReader α) : PatternReader α :=
  { r with reader? := r.reader?.map (·.follow t) }

abbrev Step (α β : Type) := EStateM Error (PatternReader α) β

def startFile [RecordType α] (t : FileTree) (source : Source) (scanSize : UInt64) (path : Bytes) :
    Except Error (ContainerReader α × Bool) := do
  let reader ← ContainerReader.create t (source.subrange path 0 Source.unbounded) scanSize
  match ContainerReader.start t reader with
  | .ok found reader => .ok (reader, found)
  | .error e _ => .error e

/-- Takes over a started reader; its file is passed at once if it holds no record. -/
def install (reader : ContainerReader α) (found : Bool) (r : PatternReader α) : PatternReader α :=
  { r with reader? := some reader, ahead := if found then r.ahead else r.ahead.tail }

def pass (r : PatternReader α) : PatternReader α := { r with ahead := r.ahead.tail }

def finish (r : PatternReader α) : PatternReader α := { r with reader? := none, done := true }

/-- Goes on to the first of the remaining files that holds a record. -/
def openFrom [RecordType α] (t : FileTree) : List Bytes → Step α Bool
  | [] => do
    modify finish
    return false
  | path :: rest => do
    let r ← get
    let (reader, found) ← check (startFile t r.source r.scanSize path)
    modify (install reader found)
    if found then return true else openFrom t rest

def openNext [RecordType α] (t : FileTree) : Step α Bool := do
  let r ← get
  openFrom t r.ahead

def start [RecordType α] (t : FileTree) : Step α Bool := do
  ensure (!(← get).started) (.misuse (.startedTwice .pattern))
  modify fun r =>
    let files := t.glob r.source.path
    { r with started := true, files, ahead := files }
  openNext t

def advanceFile (reader : ContainerReader α) : Step α Bool :=
  focus (fun _ => reader) (fun r reader => { r with reader? := some reader }) id
    ContainerReader.advance

def advance [RecordType α] (t : FileTree) : Step α Bool := do
  let r ← get
  ensure r.started (.misuse (.notStarted .pattern))
  match r.done, r.reader? with
  | false, some reader =>
    if ← advanceFile reader then return true
    else do
      modify pass
      openNext t
  | _, _ => return false

def current (r : PatternReader α) : Except Error α :=
  match r.reader? with
  | some reader => reader.current
  | none => .error (.misuse .noCurrentRecord)

/-- The passed files and the progress in the present one, of the number of files. -/
def fractionConsumed (β : Type) [Measure β] (r : PatternReader α) : β :=
  if r.done then Measure.one
  else if r.files.isEmpty then Measure.zero
  else
    let present := match r.reader? with
      | some reader => reader.fractionConsumed β
      | none => Measure.zero
    let passed := r.files.length - r.ahead.length
    Measure.div (Measure.add (Measure.ofOffset (UInt64.ofNat passed)) present)
      (Measure.ofOffset (UInt64.ofNat r.files.length))

def close (r : PatternReader α) : PatternReader α := { r with reader? := none, done := true }

end PatternReader
end BlockContainer
