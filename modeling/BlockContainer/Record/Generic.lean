import BlockContainer.Schema.Basic
import BlockContainer.Record.Value

/-! # Records laid out by a schema

A record holds one value for each field of its schema. `set` refuses a value of
another type, so the records that a program can build are well typed; the operations
that rely on it check it again and say so when it fails.
-/
namespace BlockContainer

structure Record where
  schema : Schema
  values : List Value
deriving DecidableEq, Repr

namespace Record

def ofSchema (schema : Schema) : Record where
  schema
  values := schema.fields.map fun f => Value.ofType f.type

/-- A record needs a schema; there may be none to give. -/
def create : Option Schema → Except Error Record
  | none => .error (.argument .recordWithoutSchema)
  | some schema => .ok (ofSchema schema)

def get (r : Record) (field : Bytes) : Except Error Value := do
  let i ← r.schema.fieldIndex field
  match r.values[i]? with
  | some v => .ok v
  | none => .error .valueAlternative

def getAs (r : Record) (field : Bytes) (type : FieldType) : Except Error Value := do
  let v ← r.get field
  if v.type = type then .ok v else .error .valueAlternative

def set (r : Record) (field : Bytes) (v : Value) : Except Error Record := do
  let i ← r.schema.fieldIndex field
  match r.schema.fields[i]? with
  | none => .error .valueAlternative
  | some f =>
    if v.type = f.type then .ok { r with values := r.values.set i v }
    else .error (.argument (.valueType field f.type))

def setAll (r : Record) (fields : List (Bytes × Value)) : Except Error Record :=
  fields.foldlM (fun r f => r.set f.1 f.2) r

def decode (schema : Schema) : Decoding Record := do
  let values ← schema.fields.mapM fun f => Value.decode f.type
  return { schema, values }

def placed (f : Field) (v : Value) : Except Error Value :=
  if v.type = f.type then .ok v else .error .valueAlternative

def encode (r : Record) : Except Error Bytes := do
  let values ← (r.schema.fields.zip r.values).mapM fun (f, v) => placed f v
  return values.flatMap Value.encode

def fieldText (f : Field) (v : Value) : Bytes := Value.quoted f.name ++ ": " ++ v.text

def text (r : Record) : Bytes :=
  "\x7b" ++ Bytes.intercalate ", " (List.zipWith fieldText r.schema.fields r.values) ++ "\x7d"

def equal (r s : Record) : Bool :=
  r.schema == s.schema && r.values.length == s.values.length &&
    (r.values.zip s.values).all fun (v, w) => v.equal w

end Record
end BlockContainer
