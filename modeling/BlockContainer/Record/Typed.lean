import BlockContainer.Record.Generic
import BlockContainer.Schema.Binding

/-! # Types of records

A reader returns records of one type: generic ones, laid out by a schema that is found
when a file is opened, or records of a type of its own with a schema of its own. Such a
type reads only files that were written with just this schema, or with none.
-/
namespace BlockContainer

/-- What a reader needs to know of the records that it returns. -/
class RecordType (α : Type) where
  decoding : SchemaBinding → Header → Except ConfigurationError (Decoding α)
  encode : α → Except Error Bytes
  text : α → Bytes

instance : RecordType Record where
  decoding b h := do return Record.decode (← b.resolve h)
  encode := Record.encode
  text := Record.text

class TypedRecord (α : Type) where
  schema : Schema
  decode : Decoding α
  encode : α → Bytes
  text : α → Bytes

namespace TypedRecord

variable (α : Type) [TypedRecord α]

/-- Refuses a file that was written with another schema. -/
def accept (h : Header) : Except ConfigurationError Unit := do
  if h.schemaJson.isEmpty then return
  let written ← Schema.ofJson h.schemaJson
  if written ≠ schema α then throw (.schemaMismatch written.fullName (schema α).fullName)

instance : RecordType α where
  decoding _ h := do
    accept α h
    return decode
  encode r := .ok (encode r)
  text := text

end TypedRecord

structure FixedRecord where
  value : Bytes
  length_eq : value.length = 15
deriving DecidableEq

namespace FixedRecord

def size : Nat := 15

def ofInt (n : Int32) : FixedRecord where
  value := Bytes.ofLittleEndian 4 n.toUInt32.toNat ++ List.replicate 11 0
  length_eq := by simp [Bytes.ofLittleEndian]

def toInt (r : FixedRecord) : Int32 :=
  (UInt32.ofNat (Bytes.toLittleEndian (r.value.take 4))).toInt32

def schema : Schema where
  name := "FixedRecord"
  nameSpace := "blocksplit.test"
  fields := [⟨"value", .bytes⟩]

def decode : Decoding FixedRecord := do
  let value ← Decoder.readBytes
  if h : value.length = 15 then return ⟨value, h⟩ else throw (.fixedRecordSize value.length)

instance : TypedRecord FixedRecord where
  schema := schema
  decode := decode
  encode r := Encode.bytes r.value
  text r := s!"FixedRecord({r.toInt.toInt})"

end FixedRecord

structure Bird where
  number : Int64
  species : Bytes
  quality : Bytes
  quantity : Int64
deriving DecidableEq, Repr

namespace Bird

def schema : Schema where
  name := "Bird"
  nameSpace := "blocksplit.test"
  fields := [⟨"number", .long⟩, ⟨"species", .string⟩, ⟨"quality", .string⟩, ⟨"quantity", .long⟩]

def decode : Decoding Bird := do
  return {
    number := ← Decoder.readLong
    species := ← Decoder.readBytes
    quality := ← Decoder.readBytes
    quantity := ← Decoder.readLong }

def encode (b : Bird) : Bytes :=
  Encode.long b.number ++ Encode.bytes b.species ++ Encode.bytes b.quality ++
    Encode.long b.quantity

def text (b : Bird) : Bytes :=
  s!"Bird({b.number.toInt} {b.quantity.toInt} " ++ b.quality ++ " " ++ b.species ++ ")"

instance : TypedRecord Bird := ⟨schema, decode, encode, text⟩

end Bird
end BlockContainer
