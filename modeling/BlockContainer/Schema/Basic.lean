import BlockContainer.Error

/-! # Record schemas

A schema is a name, an optional name space and a list of named fields of primitive
types. Field names may repeat; a name then means the first field that has it.
-/
namespace BlockContainer

structure Field where
  name : Bytes
  type : FieldType
deriving DecidableEq, Repr

structure Schema where
  name : Bytes := []
  nameSpace : Bytes := []
  fields : List Field := []
deriving DecidableEq, Repr

namespace Schema

def fullName (s : Schema) : Bytes :=
  if s.nameSpace.isEmpty then s.name else s.nameSpace ++ "." ++ s.name

def fieldIndex (s : Schema) (name : Bytes) : Except Error Nat :=
  match s.fields.findIdx? fun f => f.name == name with
  | some i => .ok i
  | none => .error (.fieldUnknown name s.fullName)

end Schema
end BlockContainer
