import BlockContainer.Bytes

/-! # Field types

The eight primitive types a field of a record can have, with their names.
-/
namespace BlockContainer

inductive FieldType where
  | null | boolean | int | long | float | double | bytes | string
deriving DecidableEq, Repr

namespace FieldType

def all : List FieldType := [null, boolean, int, long, float, double, bytes, string]

def name : FieldType → Bytes
  | null => "null"
  | boolean => "boolean"
  | int => "int"
  | long => "long"
  | float => "float"
  | double => "double"
  | bytes => "bytes"
  | string => "string"

def ofName? (name : Bytes) : Option FieldType := all.find? fun t => t.name == name

end FieldType
end BlockContainer
