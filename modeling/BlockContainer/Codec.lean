import BlockContainer.Deflate.Chunks

/-! # Codecs

A codec turns the payload of a block into its compressed form and back. Codecs are found
by name in a registry; the name in a header decides how its blocks are read.
-/
namespace BlockContainer

inductive Codec where
  | null
  | deflate (level : Int)
deriving DecidableEq, Repr

namespace Codec

def name : Codec → Bytes
  | null => "null"
  | deflate _ => "deflate"

/-- The part of a payload that the services for streams see, which count bytes in 32 bits. -/
def addressable (payload : Bytes) : Bytes := payload.take (payload.length % 4294967296)

theorem addressable_of_lt {payload : Bytes} (h : payload.length < 4294967296) :
    addressable payload = payload := by
  rw [addressable, Nat.mod_eq_of_lt h, List.take_length]

theorem length_addressable_lt (payload : Bytes) : (addressable payload).length < 4294967296 := by
  rw [addressable, List.length_take]
  have hmod : payload.length % 4294967296 < 4294967296 := Nat.mod_lt _ (by decide)
  omega

def compressBy (d : Deflate.Compressor) (halts : d.Halts) (c : Codec) (payload : Bytes) :
    Except Error Bytes :=
  match c with
  | null => .ok payload
  | deflate level => d.run halts level (addressable payload)

def decompressBy (z : Deflate.Inflater) (halts : z.Halts) (c : Codec) (payload : Bytes) :
    Except FormatError Bytes :=
  match c with
  | null => .ok payload
  | deflate _ => z.run halts (addressable payload)

def compress [Deflate.Service] (c : Codec) (payload : Bytes) : Except Error Bytes :=
  compressBy Deflate.Service.compressor Deflate.Service.halts c payload

def decompress (c : Codec) (payload : Bytes) : Except FormatError Bytes :=
  decompressBy .standard Deflate.Inflater.standard_conforms.halts c payload

theorem compress_deflate {level : Int} (hlevel : -1 ≤ level ∧ level ≤ 9) (payload : Bytes) :
    (deflate level).compress payload = .ok (Deflate.deflate level (addressable payload)) :=
  Deflate.Compressor.standard_conforms.run_eq Deflate.Compressor.standard_conforms.halts hlevel _

theorem decompress_deflate (level : Int) (payload : Bytes) :
    (deflate level).decompress payload = Deflate.unpacked (addressable payload) :=
  Deflate.Inflater.standard_conforms.run_eq Deflate.Inflater.standard_conforms.halts _

end Codec

/-- Codecs by name; of entries with one name the first counts. -/
structure CodecRegistry where
  entries : List (Bytes × Codec)

namespace CodecRegistry

def standard : CodecRegistry := ⟨[("null", .null), ("deflate", .deflate Deflate.defaultLevel)]⟩

instance : Inhabited CodecRegistry := ⟨standard⟩

def find? (r : CodecRegistry) (name : Bytes) : Option Codec :=
  (r.entries.find? fun e => e.1 == name).map Prod.snd

def register (r : CodecRegistry) (name : Bytes) (c : Codec) : CodecRegistry :=
  ⟨(name, c) :: r.entries⟩

def create (r : CodecRegistry) (name : Bytes) : Except ConfigurationError Codec :=
  match r.find? name with
  | some c => .ok c
  | none => .error (.codecUnknown name)

end CodecRegistry
end BlockContainer
