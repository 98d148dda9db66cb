import BlockContainer.Proofs.Record.RoundTrip

/-! # The records that a program can have

A program has a record from its schema or from a decoder and sets fields of it as often as it
likes. A value that does not fit its field is refused and changes nothing. So each record that
comes about like this is well typed, and what is encoded of it is decoded to it again.
-/
namespace BlockContainer

open Decoder

/-- What is decoded for a type is of this type and was in memory before. -/
theorem Value.type_of_decode {type : FieldType} {v : Value} {d d' : Decoder}
    (h : Value.decode type d = .ok v d') : v.type = type ∧ v.Storable := by
  cases type with
  | null =>
    cases h
    exact ⟨rfl, trivial⟩
  | bytes | string =>
    obtain ⟨b, d₁, hread, hreturn⟩ := bind_eq_ok_iff.1 h
    cases hreturn
    exact ⟨rfl, length_lt_of_readBytes hread⟩
  | boolean | int | long | float | double =>
    obtain ⟨_, _, -, hreturn⟩ := bind_eq_ok_iff.1 h
    cases hreturn
    exact ⟨rfl, trivial⟩

namespace Record

theorem wellTyped_ofSchema (schema : Schema) : (ofSchema schema).WellTyped := by
  rw [WellTyped, ofSchema, List.map_map]
  apply List.map_congr_left
  intro f _
  cases f with
  | mk name type => cases type <;> rfl

/-- A set that succeeds puts the value in the place of its field, which is of its type. -/
theorem eq_of_set {r r' : Record} {field : Bytes} {v : Value} (h : r.set field v = .ok r') :
    ∃ i f, r.schema.fieldIndex field = .ok i ∧ r.schema.fields[i]? = some f ∧ v.type = f.type ∧
      r' = { r with values := r.values.set i v } := by
  simp only [set, bind, Except.bind] at h
  split at h
  · cases h
  · next i hindex =>
    split at h
    · cases h
    · next f hfield =>
      split at h
      · next htype =>
        cases h
        exact ⟨i, f, hindex, hfield, htype, rfl⟩
      · cases h

theorem wellTyped_set {r r' : Record} {field : Bytes} {v : Value} (hr : r.WellTyped)
    (h : r.set field v = .ok r') : r'.WellTyped ∧ r'.schema = r.schema := by
  obtain ⟨i, f, -, hfield, htype, rfl⟩ := eq_of_set h
  refine ⟨?_, rfl⟩
  have hsame : (r.schema.fields.map Field.type).set i f.type = r.schema.fields.map Field.type := by
    obtain ⟨hi, rfl⟩ := List.getElem?_eq_some_iff.1 hfield
    rw [← List.map_set, List.set_getElem_self]
  change (r.values.set i v).map Value.type = r.schema.fields.map Field.type
  rw [List.map_set, hr, htype, hsame]

theorem mem_set {r r' : Record} {field : Bytes} {v w : Value} (h : r.set field v = .ok r')
    (hw : w ∈ r'.values) : w = v ∨ w ∈ r.values := by
  obtain ⟨i, f, -, -, -, rfl⟩ := eq_of_set h
  exact (List.mem_or_eq_of_mem_set hw).symm

/-- What a set leaves; where the value is refused, the record as it was. -/
def assign (r : Record) (field : Bytes) (v : Value) : Record :=
  match r.set field v with
  | .ok r' => r'
  | .error _ => r

/-- A program can have this record of the schema. -/
inductive Reachable (schema : Schema) : Record → Prop where
  | created {r : Record} : create (some schema) = .ok r → Reachable schema r
  | decoded {d d' : Decoder} {r : Record} : decode schema d = .ok r d' → Reachable schema r
  | assigned {r : Record} (field : Bytes) (v : Value) :
      Reachable schema r → v.Storable → Reachable schema (r.assign field v)

structure Sound (schema : Schema) (r : Record) : Prop where
  schema_eq : r.schema = schema
  wellTyped : r.WellTyped
  storable : ∀ v ∈ r.values, v.Storable

namespace Sound

variable {schema : Schema} {r : Record}

theorem ofSchema (schema : Schema) : Sound schema (ofSchema schema) where
  schema_eq := rfl
  wellTyped := wellTyped_ofSchema schema
  storable := by
    intro v hv
    obtain ⟨f, -, rfl⟩ := List.mem_map.1 hv
    exact Value.storable_ofType f.type

theorem assign (h : Sound schema r) (field : Bytes) {v : Value} (hv : v.Storable) :
    Sound schema (r.assign field v) := by
  unfold Record.assign
  split
  · next r' hset =>
    obtain ⟨htyped, hschema⟩ := wellTyped_set h.wellTyped hset
    refine ⟨hschema.trans h.schema_eq, htyped, ?_⟩
    intro w hw
    rcases mem_set hset hw with rfl | hw
    · exact hv
    · exact h.storable w hw
  · exact h

theorem decode_values {fields : List Field} {values : List Value} {d d' : Decoder}
    (h : (fields.mapM fun f => Value.decode f.type) d = .ok values d') :
    values.map Value.type = fields.map Field.type ∧ ∀ v ∈ values, v.Storable := by
  induction fields generalizing values d with
  | nil =>
    cases h
    exact ⟨rfl, fun _ hv => absurd hv List.not_mem_nil⟩
  | cons f rest ih =>
    rw [List.mapM_cons] at h
    obtain ⟨v, d₁, hfirst, h⟩ := bind_eq_ok_iff.1 h
    obtain ⟨values', d₂, hrest, hreturn⟩ := bind_eq_ok_iff.1 h
    cases hreturn
    obtain ⟨htype, hstorable⟩ := Value.type_of_decode hfirst
    obtain ⟨htypes, hall⟩ := ih hrest
    refine ⟨?_, List.forall_mem_cons.2 ⟨hstorable, hall⟩⟩
    rw [List.map_cons, List.map_cons, htype, htypes]

theorem decode {d d' : Decoder} (h : decode schema d = .ok r d') : Sound schema r := by
  obtain ⟨values, d₁, hvalues, hreturn⟩ := bind_eq_ok_iff.1 h
  cases hreturn
  obtain ⟨htypes, hstorable⟩ := decode_values hvalues
  exact ⟨rfl, htypes, hstorable⟩

theorem encode (h : Sound schema r) : r.encode = .ok (r.values.flatMap Value.encode) :=
  encode_of_wellTyped h.wellTyped

theorem takes (h : Sound schema r) :
    Takes (Record.decode schema) (r.values.flatMap Value.encode) r :=
  h.schema_eq ▸ takes_encode h.wellTyped h.storable

theorem encode_all {records : List Record} (h : ∀ r ∈ records, Sound schema r) :
    records.mapM Record.encode = .ok (records.map fun r => r.values.flatMap Value.encode) :=
  Runs.mapM_of_ok fun r hr => (h r hr).encode

end Sound

theorem Reachable.sound {schema : Schema} {r : Record} (h : Reachable schema r) :
    Sound schema r := by
  induction h with
  | created h =>
    cases h
    exact Sound.ofSchema schema
  | decoded h => exact Sound.decode h
  | assigned field v _ hv ih => exact ih.assign field hv

/-- A record that a program can have is well typed, is always encoded, and is decoded from its
encoding as it was, bit by bit, before whatever follows; so are the records of a schema one behind
the other. -/
theorem reachable_rereads (schema : Schema) :
    (∀ r, Reachable schema r → r.schema = schema ∧ r.WellTyped ∧
      ∃ b, r.encode = .ok b ∧
        ∀ d t, d.rest = b ++ t → ∃ d', decode schema d = .ok r d' ∧ d'.rest = t) ∧
    ∀ records, (∀ r ∈ records, Reachable schema r) →
      ∃ encodings, records.mapM encode = .ok encodings ∧
        ∀ d t, d.rest = encodings.flatten ++ t →
          ∃ d', DecodesTo (decode schema) d records d' ∧ d'.rest = t := by
  constructor
  · intro r hr
    have hsound := hr.sound
    refine ⟨hsound.schema_eq, hsound.wellTyped, _, hsound.encode, ?_⟩
    intro d t hrest
    exact ⟨_, hsound.takes d t hrest, rest_move hrest⟩
  · intro records hrecords
    have hsound : ∀ r ∈ records, Sound schema r := fun r hr => (hrecords r hr).sound
    refine ⟨_, Sound.encode_all hsound, ?_⟩
    intro d t hrest
    have htakes : ∀ r ∈ records, Takes (decode schema) (r.values.flatMap Value.encode) (id r) :=
      fun r hr => (hsound r hr).takes
    obtain ⟨d', hdecodes, hleft⟩ := decodesTo_of_takes htakes hrest
    rw [List.map_id] at hdecodes
    exact ⟨d', hdecodes, hleft⟩

def twinSchema : Schema where
  name := "Twins"
  fields := [⟨"a", .double⟩, ⟨"a", .bytes⟩, ⟨"n", .null⟩]

/-- The first field holds a number that is not equal to itself. The name means this field, so that
the bytes are refused. -/
def twins : Record :=
  ((ofSchema twinSchema).assign "a" (.double 0x7FF8000000000001)).assign "a" (.bytes [1])

theorem reachable_rereads_twins :
    Reachable twinSchema twins ∧
      twins.values = [.double 0x7FF8000000000001, .bytes [], .null] ∧ twins.equal twins = false ∧
      ∃ b, twins.encode = .ok b ∧
        ∀ d t, d.rest = b ++ t → ∃ d', decode twinSchema d = .ok twins d' ∧ d'.rest = t := by
  have hreach : Reachable twinSchema twins :=
    .assigned _ _ (.assigned _ _ (.created rfl) trivial) (by decide)
  exact ⟨hreach, by decide, by decide, ((reachable_rereads twinSchema).1 twins hreach).2.2⟩

end Record
end BlockContainer
