import BlockContainer.Schema.Basic
import BlockContainer.Json.Tree

/-! # The JSON form of a schema

`Schema.toJson` writes the one form that file headers hold, without blanks and with the
name space left out when it is empty. `Schema.ofJson` reads any JSON text that describes
a record of primitive fields: members in any order, members it does not know, and types
written as `{"type": …}`.
-/
namespace BlockContainer

namespace Json

def escapeLetter? (c : UInt8) : Option UInt8 :=
  if c = quote ∨ c = backslash then some c
  else if c = 0x08 then some 0x62
  else if c = 0x0c then some 0x66
  else if c = 0x0a then some 0x6e
  else if c = 0x0d then some 0x72
  else if c = 0x09 then some 0x74
  else none

def quotedByte (c : UInt8) : Bytes :=
  match escapeLetter? c with
  | some letter => [backslash, letter]
  | none => if c < 0x20 then "\\u00" ++ Bytes.byteHex c else [c]

def quoted (text : Bytes) : Bytes := quote :: text.flatMap quotedByte ++ [quote]

end Json

namespace Schema
open Json

def fieldJson (f : Field) : Bytes :=
  "\x7b\"name\":" ++ quoted f.name ++ ",\"type\":" ++ quoted f.type.name ++ "\x7d"

def nameSpaceJson (nameSpace : Bytes) : Bytes :=
  if nameSpace.isEmpty then [] else ",\"namespace\":" ++ quoted nameSpace

def toJson (s : Schema) : Bytes :=
  "\x7b\"type\":\"record\",\"name\":" ++ quoted s.name ++ nameSpaceJson s.nameSpace ++
  ",\"fields\":[" ++ Bytes.intercalate "," (s.fields.map fieldJson) ++ "]\x7d"

def typeNamed (name : Bytes) : Except ConfigurationError FieldType :=
  match FieldType.ofName? name with
  | some type => .ok type
  | none => .error (.fieldTypeUnknown name)

/-- A type is a bare name or an object that has one under `type`. -/
def fieldType (field : Bytes) (t : Tree) : Except ConfigurationError FieldType :=
  if t.children.isEmpty then typeNamed t.text
  else match t.childText? "type" with
    | some name => typeNamed name
    | none => .error (.fieldTypeComplex field)

def field (schema : Bytes) (t : Tree) : Except ConfigurationError Field :=
  match t.childText? "name" with
  | none | some [] => .error (.fieldUnnamed schema)
  | some name =>
    match t.child? "type" with
    | none => .error (.fieldUntyped name)
    | some type => do .ok { name, type := ← fieldType name type }

def ofTree (t : Tree) : Except ConfigurationError Schema :=
  if t.childText? "type" ≠ some "record" then .error .schemaNotRecord
  else match t.childText? "name" with
    | none | some [] => .error .schemaUnnamed
    | some name =>
      match t.child? "fields" with
      | none => .error (.schemaWithoutFields name)
      | some fields => do
        let fields ← fields.children.mapM fun c => field name c.2
        .ok { name, nameSpace := (t.childText? "namespace").getD [], fields }

def ofJson (text : Bytes) : Except ConfigurationError Schema :=
  match Tree.ofText? text with
  | none => .error .schemaSyntax
  | some t => ofTree t

end Schema
end BlockContainer
