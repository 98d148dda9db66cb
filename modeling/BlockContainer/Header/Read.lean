import BlockContainer.Focus
import BlockContainer.Header.Basic
import BlockContainer.Stream.Consumption

/-! # Reading a header

The header is filled as its parts are read, so a reader that fails leaves the parts it
has seen: the old metadata until the magic bytes are accepted, then the entries read so
far, and the bytes of the marker that were there.
-/
namespace BlockContainer

structure HeaderReading where
  stream : InputStream
  header : Header

namespace Header

abbrev Filling (α : Type) := EStateM FormatError HeaderReading α

def onStream {α : Type} (m : Reading α) : Filling α :=
  focus HeaderReading.stream (fun s stream => { s with stream }) id m

def fill (f : Header → Header) : Filling Unit := modify fun s => { s with header := f s.header }

def readMagic : Reading Unit := do
  let found ← InputStream.readExactly magicSize .magicMissing
  if found.take 3 ≠ magic then throw .magicMismatch
  else if found ≠ magic ++ [version] then
    throw (.versionUnsupported ((found.getLast?.getD 0).toInt8))

def readEntry : Filling Unit := do
  let key ← onStream InputStream.readString
  let value ← onStream InputStream.readString
  fill fun h => { h with metadata := h.metadata.insert key value }

def readEntries : Nat → Filling Unit
  | 0 => pure ()
  | n + 1 => do
    readEntry
    readEntries n

/-- The count of entries in the next block of the map. A negative count stands for its
absolute value and is followed by the size of the block, which is not needed. -/
def readEntryCount : Reading Nat := do
  let count ← InputStream.readLong
  if count = Int64.minValue then throw .metadataCount
  else if count.toInt < 0 then
    let _ ← InputStream.readLong
    pure (-count.toInt).toNat
  else pure count.toInt.toNat

def left (s : HeaderReading) : Nat := s.stream.left

theorem consumes_onStream {α : Type} {k : Nat} {m : Reading α}
    (h : Consumes InputStream.left k m) : Consumes left k (onStream m) :=
  Consumes.focus h (fun _ => rfl) (fun _ _ => rfl)

theorem consumes_readEntry : Consumes left 2 readEntry := by
  have hstring := consumes_onStream InputStream.consumes_readString
  refine Consumes.bind hstring fun key => Consumes.bind (k := 0) hstring fun value => ?_
  exact Consumes.modify fun _ => Nat.le_refl _

theorem consumes_readEntries (n : Nat) : Consumes left (2 * n) (readEntries n) := by
  induction n with
  | zero => exact Consumes.pure ()
  | succ n ih => exact (Consumes.bind consumes_readEntry fun _ => ih).of_le (by omega)

theorem consumes_readEntryCount : Consumes InputStream.left 1 readEntryCount := by
  refine Consumes.bind (k := 0) InputStream.consumes_readLong fun count => ?_
  split
  · exact Consumes.throw _
  · split
    · exact (Consumes.bind InputStream.consumes_readLong fun _ => Consumes.pure _).of_le (by omega)
    · exact Consumes.pure _

def readMap (s : HeaderReading) : EStateM.Result FormatError HeaderReading Unit :=
  match _ : onStream readEntryCount s with
  | .error e s => .error e s
  | .ok n s₁ =>
    if n = 0 then .ok () s₁
    else match _ : readEntries n s₁ with
      | .error e s => .error e s
      | .ok () s₂ => readMap s₂
termination_by left s
decreasing_by
  have := consumes_onStream consumes_readEntryCount ‹onStream readEntryCount s = _›
  have := consumes_readEntries n ‹readEntries n s₁ = _›
  omega

def readMarker : Filling Unit := fun s =>
  let (found, stream) := s.stream.read SyncMarker.size
  let filled : HeaderReading :=
    { stream, header := { s.header with marker := s.header.marker.overwrite found } }
  if found.length = SyncMarker.size then .ok () filled
  else .error .headerMarkerMissing filled

/-- Reads a header at the position of the stream and sets its size. A stream that does not tell
its position gives the size zero. -/
def read : Filling Unit := do
  let start := (← get).stream.tell?
  onStream readMagic
  fill fun h => { h with metadata := ∅ }
  readMap
  readMarker
  let stop := (← get).stream.tell?
  fill fun h => { h with size := stop.getD 0 - start.getD 0 }

end Header
end BlockContainer
