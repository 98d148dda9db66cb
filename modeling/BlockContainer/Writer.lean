import BlockContainer.Block.Basic
import BlockContainer.Codec
import BlockContainer.FileTree
import BlockContainer.Header.Write
import BlockContainer.Record.Typed

/-! # Writing a container

Accepted records wait until their bytes reach the sync interval, or until a sync or the
end, and then go out as one block. A block that cannot be written keeps its records
waiting. After the file is closed records can still be accepted, as long as no block has
to be written.
-/
namespace BlockContainer

structure Writer where
  filename : Bytes
  schema : Schema
  codec : Codec
  syncInterval : Nat
  header : Header
  output : OutputStream
  isOpen : Bool := true
  /-- Encoded records that wait for a block, the last one first. -/
  waiting : List Bytes := []
  waitingSize : Nat := 0
  recordsWritten : Nat := 0
  bytesWritten : Nat
  waitingSize_eq : waitingSize = waiting.flatten.length := by rfl
  syncInterval_pos : 0 < syncInterval

namespace Writer

def defaultSyncInterval : Nat := 64000

def fullDevice : Bytes := "/dev/full"

def device? (t : FileTree) (path : Bytes) : Option OutputStream :=
  if FileTree.untilZero path = fullDevice then some { full := true }
  else if (t.creatable? path).isSome then some { full := false }
  else none

def headerFor (schema : Schema) (codec : Codec) (marker : SyncMarker) : Header where
  metadata := .ofList [(Header.schemaKey, schema.toJson), (Header.codecKey, codec.name)]
  marker

def create (t : FileTree) (filename : Bytes) (schema : Schema) (codecName : Bytes)
    (syncInterval : Nat) (marker : SyncMarker) : Except Error Writer := do
  let codec ← (CodecRegistry.standard.create codecName).mapError Error.configuration
  match device? t filename with
  | none => throw (.service (.createFile filename))
  | some device =>
    match (headerFor schema codec marker).write device with
    | .error e _ => throw e
    | .ok header output =>
      return {
        filename, schema, codec, header, output
        syncInterval := max syncInterval 1
        syncInterval_pos := by omega
        bytesWritten := header.size }

abbrev Step (α : Type) := EStateM Error Writer α

def emptied (w : Writer) (block : Block) (size : Nat) : Writer :=
  { w with
    waiting := []
    waitingSize := 0
    recordsWritten := w.recordsWritten + block.recordCount.toInt.toNat
    bytesWritten := w.bytesWritten + size
    waitingSize_eq := rfl }

variable [Deflate.Service]

def writeWaiting : Step Unit := do
  let w ← get
  if w.waiting.isEmpty then return ()
  else do
    ensure w.isOpen (.misuse (.writerClosed w.filename))
    let payload ← check (w.codec.compress w.waiting.reverse.flatten)
    let block : Block := { recordCount := Int64.ofInt w.waiting.length, payload }
    let size ← focus output (fun w output => { w with output }) id (block.write w.header.marker)
    modify fun w => w.emptied block size

def accept (w : Writer) (record : Bytes) : Writer :=
  { w with
    waiting := record :: w.waiting
    waitingSize := record.length + w.waitingSize
    waitingSize_eq := by simp [w.waitingSize_eq] }

def appendEncoded (record : Bytes) : Step Unit := do
  modify fun w => w.accept record
  let w ← get
  if w.syncInterval ≤ w.waitingSize then writeWaiting else return ()

def append (r : Record) : Step Unit := do
  let w ← get
  ensure (r.schema = w.schema) (.argument (.recordSchema r.schema.fullName w.schema.fullName))
  appendEncoded (← check r.encode)

/-- Appends a record of a type of its own, whatever the schema of the file. -/
def appendTyped {α : Type} [TypedRecord α] (a : α) : Step Unit :=
  appendEncoded (TypedRecord.encode a)

/-- Ends the present block and returns the offset of the next one. -/
def sync : Step Nat := do
  writeWaiting
  return (← get).bytesWritten

def close : Step Unit := do
  if (← get).isOpen then do
    writeWaiting
    let w ← get
    set { w with isOpen := false }
    ensure w.output.closes .writeFailed
  else return ()

def finish (w : Writer) : Writer :=
  match close w with
  | .ok () w => w
  | .error _ w => w

def file (w : Writer) : Bytes := if w.output.full then [] else w.output.accepted

end Writer
end BlockContainer
