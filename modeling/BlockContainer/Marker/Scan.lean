import BlockContainer.Header.Basic
import BlockContainer.Marker.Search
import BlockContainer.Stream.Consumption

/-! # Scanning for a marker

The stream is read in chunks and left just behind the next marker: what a chunk holds
beyond it is given back. Without a marker the scan ends at the end of the stream.
-/
namespace BlockContainer

namespace InputStream

/-- Moves back over bytes that were read last. A pipe cannot, and fails. -/
def giveBack (n : Nat) (s : InputStream) : InputStream :=
  s.clear.seek (s.position - n)

end InputStream

namespace SyncMarker

def searcher (m : SyncMarker) : Searcher where
  pattern := m.bytes.toArray
  borders := .ofPattern m.bytes.toArray
  matched := 0

def defaultScanSize : Nat := 4096

/-- Continues a scan that has passed `consumed` bytes. -/
def scanFrom (chunkSize consumed : Nat) (searcher : Searcher) (s : InputStream) :
    EStateM.Result Error InputStream Nat :=
  match _ : s.read chunkSize with
  | (chunk, s') =>
    if chunk.length = 0 then .ok consumed s'
    else match searcher.find chunk with
      | (none, searcher') => scanFrom chunkSize (consumed + chunk.length) searcher' s'
      | (some last, _) =>
        let excess := chunk.length - (last + 1)
        if excess = 0 then .ok (consumed + (last + 1)) s'
        else
          let s'' := s'.giveBack excess
          if s''.failed then .error (.service .giveBack) s''
          else .ok (consumed + (last + 1)) s''
termination_by s.left
decreasing_by
  have := InputStream.left_read s chunkSize
  simp only [‹s.read chunkSize = _›] at this
  omega

def advancePast (m : SyncMarker) (chunkSize : Nat) : EStateM Error InputStream Nat :=
  scanFrom chunkSize 0 m.searcher

end SyncMarker
end BlockContainer
