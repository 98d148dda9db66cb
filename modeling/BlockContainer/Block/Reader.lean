import BlockContainer.Block.Basic
import BlockContainer.Codec
import BlockContainer.Decoder
import BlockContainer.FileTree
import BlockContainer.Header.Read
import BlockContainer.Marker.Scan
import BlockContainer.Range.Tracker

/-! # Reading the blocks of a range

A block belongs to the range that holds its first byte. On opening, the reader finds the
first block of its range: right behind the header for a range from the start of the file,
else behind the first marker that ends at or after the start of the range. Before each
block it reports to its tracker, which may have given up the rest of the range.

A call that fails leaves the reader as far as it came, and the next one goes on from there.
-/
namespace BlockContainer

structure BlockReader where
  filename : Bytes
  scanSize : Nat
  fileSize : UInt64
  tracker : RangeTracker
  stream? : Option InputStream := none
  /-- The number of the file that is open. -/
  file? : Option Nat := none
  header : Header := {}
  codec? : Option Codec := none
  recordCount : Int64 := 0
  decoder? : Option Decoder := none
  blockStart : UInt64 := 0
  nextBlockStart : UInt64 := 0

namespace BlockReader

def create (t : FileTree) (filename : Bytes) (start stop : UInt64) (scanSize : Nat) :
    Except Error BlockReader := do
  let fileSize := UInt64.ofNat (← t.fileSize filename)
  return { filename, scanSize, fileSize, tracker := .ofRange start (max start (min stop fileSize)) }

def isOpen (r : BlockReader) : Bool := r.stream?.isSome

def noStream : InputStream := (InputStream.ofBytes .file []).fail

def stream (r : BlockReader) : InputStream := r.stream?.getD noStream

abbrev Step (α : Type) := EStateM Error BlockReader α

def onStream {ε α : Type} (cause : ε → Error) (m : EStateM ε InputStream α) : Step α :=
  focus stream (fun r s => { r with stream? := some s }) cause m

/-- Takes up the file. One that is taken up already cannot be taken up again, and fails. -/
def takeUp (t : FileTree) : Step Unit := do
  let r ← get
  match r.stream?, t.openPath r.filename with
  | some s, _ => set { r with stream? := some s.fail }
  | none, .ok (file?, content) => set { r with stream? := some (.ofBytes .file content), file? }
  | none, .error reason => throw (.service (.openFile r.filename reason))

def follow (t : FileTree) (r : BlockReader) : BlockReader :=
  match r.stream?, r.file?.bind t.contentOf? with
  | some s, some content => { r with stream? := some (s.rewritten content) }
  | _, _ => r

def readHeader : Step Unit :=
  focus (fun r => { stream := r.stream, header := r.header : HeaderReading })
    (fun r h => { r with stream? := some h.stream, header := h.header }) .format Header.read

def chooseCodec : Step Unit := do
  let r ← get
  let codec ← check ((CodecRegistry.standard.create r.header.codec).mapError .configuration)
  set { r with codec? := some codec }

/-- Where a scan for the first block of a range begins: a marker may end at its start. -/
def scanOrigin (start : UInt64) : UInt64 := if 16 < start then start - 16 else 0

def align : Step Unit := do
  let start := (← get).tracker.start
  if start = 0 then
    modify fun r => { r with nextBlockStart := UInt64.ofNat r.header.size }
  else
    let origin := scanOrigin start
    onStream id (modify (InputStream.seek origin.toNat))
    let r ← get
    let passed ← onStream id (r.header.marker.advancePast r.scanSize)
    modify fun r => { r with nextBlockStart := origin + UInt64.ofNat passed }
  let r ← get
  onStream id (modify fun s => s.clear.seek r.nextBlockStart.toNat)

def openFile (t : FileTree) : Step Unit := do
  takeUp t
  readHeader
  chooseCodec
  align

def approach : Step Bool := do
  let r ← get
  ensure r.isOpen (.misuse .readerClosed)
  if r.fileSize ≤ r.nextBlockStart then do
    modify fun r => { r with tracker := r.tracker.markDone }
    return false
  else
    focus tracker (fun r tracker => { r with tracker }) id
      (RangeTracker.tryReturn true r.nextBlockStart)

def readBlock : Step Block := do
  let r ← get
  let remaining := (r.fileSize - r.nextBlockStart).toNat
  let start := r.stream.position
  let framing ← onStream .format (Block.readFraming remaining)
  modify fun r => { r with recordCount := framing.count }
  let payload ← onStream .format (Block.readBody r.header.marker framing)
  modify fun r => { r with
    blockStart := r.nextBlockStart
    nextBlockStart := r.nextBlockStart + UInt64.ofNat (r.stream.position - start) }
  return { recordCount := framing.count, payload }

def unpack (b : Block) : Step Unit := do
  match (← get).codec? with
  | none => throw (.misuse .codecMissing)
  | some codec =>
    let data ← check ((codec.decompress b.payload).mapError .format)
    modify fun r => { r with decoder? := some (.ofBytes data) }

def left (r : BlockReader) : Nat := r.stream.left

theorem consumes_onStream {ε α : Type} {cause : ε → Error} {k : Nat}
    {m : EStateM ε InputStream α} (h : Consumes InputStream.left k m) :
    Consumes left k (onStream cause m) :=
  Consumes.focus h (fun _ => rfl) (fun _ _ => rfl)

theorem consumes_approach : Consumes left 0 approach := by
  refine Consumes.bindZero (k := 0) Consumes.get fun r => ?_
  refine Consumes.bindZero (k := 0) (Consumes.ensure _ _) fun _ => Consumes.ite ?_ ?_
  · exact Consumes.bindZero (k := 0) (Consumes.modify fun _ => Nat.le_refl _) fun _ =>
      Consumes.pure _
  · intro s a s' h
    simp only [focus] at h
    split at h <;> cases h
    exact Nat.le_refl _

theorem consumes_readBlock : Consumes left 1 readBlock := by
  refine Consumes.bind (j := 0) (k := 1) Consumes.get fun r => ?_
  refine (Consumes.bind (j := 2) (k := 0) (consumes_onStream (Block.consumes_readFraming _))
    fun framing => ?_).of_le (by omega)
  refine Consumes.bindZero (k := 0) (Consumes.modify fun _ => Nat.le_refl _) fun _ => ?_
  refine Consumes.bindZero (k := 0) (consumes_onStream (Block.consumes_readBody _ _)) fun _ => ?_
  exact Consumes.bindZero (k := 0) (Consumes.modify fun _ => Nat.le_refl _) fun _ =>
    Consumes.pure _

def readNext (r : BlockReader) : EStateM.Result Error BlockReader Bool :=
  match _ : approach r with
  | .error e r => .error e r
  | .ok false r => .ok false r
  | .ok true r₁ =>
    match _ : readBlock r₁ with
    | .error e r => .error e r
    | .ok b r₂ =>
      if b.recordCount = 0 then readNext r₂
      else match unpack b r₂ with
        | .error e r => .error e r
        | .ok () r => .ok true r
termination_by left r
decreasing_by
  have := consumes_approach ‹_›
  have := consumes_readBlock ‹_›
  omega

def close (r : BlockReader) : BlockReader := { r with stream? := none, file? := none }

def blockDecoder (r : BlockReader) : Except Error Decoder :=
  match r.decoder? with
  | some d => .ok d
  | none => .error (.misuse .noBlock)

/-- Decodes from the block. A failed decoding moves the decoder all the same. -/
def decode {α : Type} (m : Decoding α) : Step α := do
  let d ← check (← get).blockDecoder
  focus (fun _ => d) (fun r d => { r with decoder? := some d }) .format m

def trySplit (fraction : UInt64) (r : BlockReader) : Option OffsetRange × BlockReader :=
  let (range?, tracker) := r.tracker.trySplit fraction
  (range?, { r with tracker })

end BlockReader
end BlockContainer
