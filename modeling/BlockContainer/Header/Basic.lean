import BlockContainer.Header.Metadata

/-! # Container headers

A file starts with a header: four magic bytes, the last of them the version of the
format, a metadata map and the marker that ends the header and every block after it.
-/
namespace BlockContainer

/-- The sixteen bytes that end the header and each block of one file. -/
structure SyncMarker where
  bytes : Bytes
  length_eq : bytes.length = 16
deriving DecidableEq

namespace SyncMarker

def size : Nat := 16

def zero : SyncMarker := ⟨List.replicate 16 0, by simp⟩

instance : Inhabited SyncMarker := ⟨zero⟩

def ofBytes? (b : Bytes) : Option SyncMarker := if h : b.length = 16 then some ⟨b, h⟩ else none

def overwrite (m : SyncMarker) (found : Bytes) : SyncMarker where
  bytes := (found ++ m.bytes.drop found.length).take 16
  length_eq := by
    have := m.length_eq
    simp only [List.length_take, List.length_append, List.length_drop]
    omega

end SyncMarker

structure Header where
  metadata : Metadata := ∅
  marker : SyncMarker := .zero
  size : Nat := 0
deriving DecidableEq

namespace Header

instance : Inhabited Header := ⟨{}⟩

def magic : Bytes := "Obj"
def version : UInt8 := 1
def magicSize : Nat := 4

def schemaKey : Bytes := "avro.schema"
def codecKey : Bytes := "avro.codec"

/-- The name of the codec, `null` when the metadata name none. -/
def codec (h : Header) : Bytes := (h.metadata.get? codecKey).getD "null"

def schemaJson (h : Header) : Bytes := (h.metadata.get? schemaKey).getD []

def entryLine (e : Bytes × Bytes) : Bytes := "  " ++ e.1 ++ ": " ++ e.2 ++ "\n"

def text (h : Header) : Bytes :=
  "ContainerHeader:\n" ++ entryLine ("size", Bytes.decimal h.size) ++
  entryLine ("codec", h.codec) ++ entryLine ("sync_marker", Bytes.hex h.marker.bytes) ++
  (h.metadata.entries.filter fun e => e.1 != codecKey).flatMap entryLine

end Header
end BlockContainer
