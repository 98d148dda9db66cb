import BlockContainer.Header.Basic
import BlockContainer.Schema.Json

/-! # Schema bindings

A binding says with which schema the records of a file are to be read: the one in the
header of the file, a given one, or one given as JSON, which is read when it is needed.
-/
namespace BlockContainer

inductive SchemaBinding where
  | ofFile
  | ofSchema (schema : Schema)
  | ofJson (text : Bytes)
deriving DecidableEq, Repr

namespace SchemaBinding

def resolve (b : SchemaBinding) (h : Header) : Except ConfigurationError Schema :=
  match b with
  | ofFile => if h.schemaJson.isEmpty then .error .schemaMissing else Schema.ofJson h.schemaJson
  | ofSchema schema => .ok schema
  | ofJson text => Schema.ofJson text

def text : SchemaBinding → Bytes
  | ofFile => "file schema"
  | ofSchema schema => "schema " ++ schema.fullName
  | ofJson text => s!"schema JSON ({text.length} chars)"

end SchemaBinding
end BlockContainer
