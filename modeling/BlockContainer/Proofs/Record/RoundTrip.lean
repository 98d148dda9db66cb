import BlockContainer.Proofs.Record.Decoding
import BlockContainer.Record.Typed

/-! # Records come back as they were written

What is written for a value takes back just that value, bit by bit, and so do the records
that consist of values, if each of them is of the type of its field.
-/
namespace BlockContainer

open Decoder

theorem Bytes.toLittleEndian_ofLittleEndian (width n : Nat) :
    toLittleEndian (ofLittleEndian width n) = n % 256 ^ width := by
  induction width generalizing n with
  | zero => simp [ofLittleEndian, toLittleEndian, Nat.mod_one]
  | succ width ih =>
    have := ih (n / 256)
    simp only [ofLittleEndian, toLittleEndian, List.foldr_cons] at this ⊢
    have hbyte : (UInt8.ofNat n).toNat = n % 256 := UInt8.toNat_ofNat'
    rw [this, hbyte, Nat.pow_succ, Nat.mul_comm (256 ^ width), Nat.mod_mul]

theorem Bytes.length_ofLittleEndian (width n : Nat) : (ofLittleEndian width n).length = width := by
  induction width generalizing n with
  | zero => rfl
  | succ width ih => simp [ofLittleEndian, ih]

namespace Decoder

theorem takes_long (n : Int64) : Takes readLong (Encode.long n) n :=
  takes_readLong (Varint.spells_encode n)

theorem takes_int (n : Int32) : Takes readInt (Encode.int n) n := by
  have hlo := n.le_toInt
  have hhi := n.toInt_lt
  have hlong : (Int64.ofInt n.toInt).toInt = n.toInt :=
    Int64.toInt_ofInt_of_le (by omega) (by omega)
  have hrange : Int32.minValue.toInt ≤ (Int64.ofInt n.toInt).toInt ∧
      (Int64.ofInt n.toInt).toInt ≤ Int32.maxValue.toInt := by
    rw [hlong]
    exact ⟨n.minValue_le_toInt, n.toInt_le⟩
  have h : Takes readInt (Encode.int n ++ []) n := by
    apply (takes_long _).bind
    rw [if_pos hrange, hlong, Int32.ofInt_toInt]
    exact Takes.pure n
  rwa [List.append_nil] at h

theorem takes_boolean (b : Bool) : Takes readBoolean (Encode.boolean b) b := by
  have h := (takes_take (Encode.boolean b)).map fun found => found != [0]
  cases b <;> exact h

theorem takes_float (bits : UInt32) : Takes readFloat (Encode.float bits) bits := by
  have h := (takes_take (Encode.float bits)).map fun b => UInt32.ofNat (Bytes.toLittleEndian b)
  have hlt : bits.toNat < 256 ^ 4 := bits.toNat_lt
  have hbits : UInt32.ofNat (Bytes.toLittleEndian (Encode.float bits)) = bits := by
    rw [Encode.float, Bytes.toLittleEndian_ofLittleEndian, Nat.mod_eq_of_lt hlt,
      UInt32.ofNat_toNat]
  have hlength : (Encode.float bits).length = 4 := Bytes.length_ofLittleEndian _ _
  rw [hbits, hlength] at h
  exact h

theorem takes_double (bits : UInt64) : Takes readDouble (Encode.double bits) bits := by
  have h := (takes_take (Encode.double bits)).map fun b => UInt64.ofNat (Bytes.toLittleEndian b)
  have hlt : bits.toNat < 256 ^ 8 := bits.toNat_lt
  have hbits : UInt64.ofNat (Bytes.toLittleEndian (Encode.double bits)) = bits := by
    rw [Encode.double, Bytes.toLittleEndian_ofLittleEndian, Nat.mod_eq_of_lt hlt,
      UInt64.ofNat_toNat]
  have hlength : (Encode.double bits).length = 8 := Bytes.length_ofLittleEndian _ _
  rw [hbits, hlength] at h
  exact h

theorem takes_bytes {b : Bytes} (h : b.length < 2 ^ 63) : Takes readBytes (Encode.bytes b) b :=
  takes_readBytes (spellsBytes_encode h)

end Decoder

namespace Value

/-- The value is one that a program can hold: no text in memory is longer. -/
def Storable : Value → Prop
  | bytes b | string b => b.length < 2 ^ 63
  | _ => True

instance : DecidablePred Storable
  | bytes _ | string _ => Nat.decLt _ _
  | null | boolean _ | int _ | long _ | float _ | double _ => .isTrue trivial

theorem storable_ofType (type : FieldType) : (ofType type).Storable := by
  cases type
  case bytes | string => exact Nat.two_pow_pos 63
  all_goals trivial

theorem storable_of_length_encode {v : Value} (h : v.encode.length < 2 ^ 63) : v.Storable := by
  have hbytes {b : Bytes} (h : (Encode.bytes b).length < 2 ^ 63) : b.length < 2 ^ 63 := by
    rw [Encode.bytes, List.length_append] at h
    omega
  cases v with
  | bytes b | string b => exact hbytes h
  | _ => trivial

/-- A value comes back from what is written for it. -/
theorem takes_encode {v : Value} (h : v.Storable) : Takes (Value.decode v.type) v.encode v := by
  cases v with
  | null => exact Takes.pure _
  | boolean b => exact (takes_boolean b).map Value.boolean
  | int n => exact (takes_int n).map Value.int
  | long n => exact (takes_long n).map Value.long
  | float bits => exact (takes_float bits).map Value.float
  | double bits => exact (takes_double bits).map Value.double
  | bytes b => exact (takes_bytes h).map Value.bytes
  | string b => exact (takes_bytes h).map Value.string

theorem steady_decode (type : FieldType) : Steady (Value.decode type) := by
  cases type
  case null => exact Steady.pure _
  case boolean => exact ((steady_take 1).bind fun _ => Steady.pure _).bind fun _ => Steady.pure _
  case int => exact steady_readInt.bind fun _ => Steady.pure _
  case long => exact steady_readLong.bind fun _ => Steady.pure _
  case float => exact ((steady_take 4).bind fun _ => Steady.pure _).bind fun _ => Steady.pure _
  case double => exact ((steady_take 8).bind fun _ => Steady.pure _).bind fun _ => Steady.pure _
  case bytes => exact steady_readBytes.bind fun _ => Steady.pure _
  case string => exact steady_readBytes.bind fun _ => Steady.pure _

end Value

namespace Record

def WellTyped (r : Record) : Prop := r.values.map Value.type = r.schema.fields.map Field.type

instance (r : Record) : Decidable r.WellTyped := inferInstanceAs (Decidable (_ = _))

theorem mapM_placed {fields : List Field} {values : List Value}
    (h : values.map Value.type = fields.map Field.type) :
    (fields.zip values).mapM (fun (f, v) => placed f v) = .ok values := by
  induction fields generalizing values with
  | nil =>
    obtain rfl : values = [] := List.map_eq_nil_iff.1 h
    rfl
  | cons f rest ih =>
    cases values with
    | nil => cases h
    | cons v values =>
      obtain ⟨htype, hrest⟩ := List.cons.inj h
      have hplaced : placed f v = .ok v := if_pos htype
      rw [List.zip_cons_cons, List.mapM_cons, ih hrest]
      change (do
        let v ← placed f v
        return v :: values) = _
      rw [hplaced]
      rfl

theorem encode_of_wellTyped {r : Record} (h : r.WellTyped) :
    r.encode = .ok (r.values.flatMap Value.encode) := by
  rw [encode, mapM_placed h]
  rfl

theorem takes_values {fields : List Field} {values : List Value}
    (h : values.map Value.type = fields.map Field.type) (hstorable : ∀ v ∈ values, v.Storable) :
    Takes (fields.mapM fun f => Value.decode f.type) (values.flatMap Value.encode) values := by
  induction fields generalizing values with
  | nil =>
    obtain rfl : values = [] := List.map_eq_nil_iff.1 h
    exact Takes.pure _
  | cons f rest ih =>
    cases values with
    | nil => cases h
    | cons v values =>
      obtain ⟨htype, hrest⟩ := List.cons.inj h
      have hv : Takes (Value.decode f.type) v.encode v :=
        htype ▸ Value.takes_encode (hstorable v List.mem_cons_self)
      have hvalues := ih hrest fun w hw => hstorable w (List.mem_cons_of_mem v hw)
      rw [List.mapM_cons, List.flatMap_cons]
      exact hv.bind (hvalues.map (v :: ·))

/-- A record comes back from what is written for it. -/
theorem takes_encode {r : Record} (h : r.WellTyped) (hstorable : ∀ v ∈ r.values, v.Storable) :
    Takes (decode r.schema) (r.values.flatMap Value.encode) r :=
  (takes_values h hstorable).map fun values => ({ schema := r.schema, values } : Record)

theorem storable_of_length {values : List Value}
    (h : (values.flatMap Value.encode).length < 2 ^ 63) : ∀ v ∈ values, v.Storable := by
  intro v hv
  have hpart : List.Sublist v.encode (values.flatMap Value.encode) :=
    List.sublist_flatten_of_mem (List.mem_map_of_mem hv)
  exact Value.storable_of_length_encode (Nat.lt_of_le_of_lt hpart.length_le h)

theorem steady_decode (schema : Schema) : Steady (decode schema) := by
  refine Steady.bind ?_ fun values => Steady.pure _
  induction schema.fields with
  | nil => exact Steady.pure _
  | cons f rest ih =>
    rw [List.mapM_cons]
    exact (Value.steady_decode f.type).bind fun v => ih.bind fun values => Steady.pure _

/-- The bytes are a whole encoding of the record under the schema, in any spelling. -/
def Encodes (schema : Schema) (b : Bytes) (r : Record) : Prop :=
  ∃ d, decode schema (.ofBytes b) = .ok r d ∧ d.rest = []

instance (schema : Schema) (b : Bytes) (r : Record) : Decidable (Encodes schema b r) :=
  match h : decode schema (.ofBytes b) with
  | .error _ _ => isFalse fun ⟨_, hrun, _⟩ => by cases h.symm.trans hrun
  | .ok found d =>
    if hsame : found = r ∧ d.rest = [] then isTrue ⟨d, hsame.1 ▸ h, hsame.2⟩
    else isFalse fun ⟨_, hrun, hrest⟩ => by
      cases h.symm.trans hrun
      exact hsame ⟨rfl, hrest⟩

/-- A whole encoding is decoded in front of anything. -/
theorem Encodes.takes {schema : Schema} {b : Bytes} {r : Record} (h : Encodes schema b r) :
    Takes (decode schema) b r := by
  obtain ⟨d, hrun, hrest⟩ := h
  obtain ⟨c, t, hb, rfl, htakes⟩ := steady_decode schema hrun
  rw [rest_move hb] at hrest
  rw [hrest, List.append_nil] at hb
  obtain rfl : b = c := hb
  exact htakes

end Record

/-- A type of records whose written form is an encoding under its schema. -/
class LawfulRecord (α : Type) [TypedRecord α] where
  toRecord : α → Record
  schema_eq : ∀ a, (toRecord a).schema = TypedRecord.schema α
  wellTyped : ∀ a, (toRecord a).WellTyped
  encode_eq : ∀ a, TypedRecord.encode a = (toRecord a).values.flatMap Value.encode

instance : LawfulRecord FixedRecord where
  toRecord r := { schema := FixedRecord.schema, values := [.bytes r.value] }
  schema_eq _ := rfl
  wellTyped _ := rfl
  encode_eq r := (List.append_nil (Encode.bytes r.value)).symm

instance : LawfulRecord Bird where
  toRecord b :=
    { schema := Bird.schema
      values := [.long b.number, .string b.species, .string b.quality, .long b.quantity] }
  schema_eq _ := rfl
  wellTyped _ := rfl
  encode_eq b := by
    change Bird.encode b = _
    simp [Bird.encode, Value.encode]

end BlockContainer
