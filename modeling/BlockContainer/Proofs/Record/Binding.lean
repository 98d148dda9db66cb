import BlockContainer.Proofs.Record.RoundTrip
import BlockContainer.Proofs.Schema.RoundTrip
import Mathlib.Data.List.Forall2

/-! # The bindings of one schema agree

The records of a file can be had as generic records, with the schema named in three ways, and as
records of a type of their own. All these ways go through the bytes alike: the ways of naming the
schema lead to one decoder, and a type reads as the generic decoder reads but may narrow less.
-/
namespace BlockContainer

/-- The binding names the schema, when the header of the file holds it too. -/
inductive SchemaBinding.Names (schema : Schema) : SchemaBinding → Prop where
  | ofFile : Names schema .ofFile
  | ofSchema : Names schema (.ofSchema schema)
  | ofJson {text : Bytes} : Schema.ofJson text = .ok schema → Names schema (.ofJson text)

theorem Schema.ofJson_nil : ofJson [] = .error .schemaSyntax := by
  simp [ofJson, Json.Tree.ofText?, Json.tokens?, Json.Tree.ofTokens?, Json.Tree.build]

theorem SchemaBinding.Names.resolve {schema : Schema} {b : SchemaBinding} (hb : b.Names schema)
    {h : Header} (hwritten : Schema.ofJson h.schemaJson = .ok schema) :
    b.resolve h = .ok schema := by
  cases hb with
  | ofFile =>
    have hnone : h.schemaJson.isEmpty = false := by
      cases hjson : h.schemaJson with
      | nil =>
        rw [hjson, Schema.ofJson_nil] at hwritten
        cases hwritten
      | cons x rest => rfl
    rw [SchemaBinding.resolve, hnone]
    exact hwritten
  | ofSchema => rfl
  | ofJson htext => exact htext

def Record.Shows (r : Record) (fields : List (Bytes × Value)) : Prop :=
  ∀ f ∈ fields, r.get f.1 = .ok f.2

@[simp] theorem Record.shows_nil (r : Record) : r.Shows [] := fun _ hf => absurd hf List.not_mem_nil

@[simp] theorem Record.shows_cons {r : Record} {f : Bytes × Value} {rest : List (Bytes × Value)} :
    r.Shows (f :: rest) ↔ r.get f.1 = .ok f.2 ∧ r.Shows rest :=
  List.forall_mem_cons

namespace TypedRecord

variable {α : Type} [TypedRecord α]

theorem accept_of_written {h : Header} (hwritten : Schema.ofJson h.schemaJson = .ok (schema α)) :
    accept α h = .ok () := by
  rw [accept]
  split
  · rfl
  · rw [hwritten]
    change (if schema α ≠ schema α then _ else _) = _
    rw [if_neg (fun hne => hne rfl)]
    rfl

/-- Records of the type are read and written as generic records with these fields are. However a
binding names the schema, it leads to the one generic decoder. The type reads those records of it
that fit, up to the same place, and fails where it fails; so both go through a payload alike. -/
structure Agrees (α : Type) [TypedRecord α] (fields : α → List (Bytes × Value))
    (Fits : Record → Prop) : Prop where
  printed : Schema.ofJson (schema α).toJson = .ok (schema α)
  generic : ∀ h b, Schema.ofJson h.schemaJson = .ok (schema α) → b.Names (schema α) →
    RecordType.decoding b h = .ok (Record.decode (schema α))
  typed : ∀ h b, Schema.ofJson h.schemaJson = .ok (schema α) →
    RecordType.decoding b h = .ok (decode (α := α))
  succeeds : ∀ d d', (∃ a : α, decode d = .ok a d') ↔
    ∃ r, Record.decode (schema α) d = .ok r d' ∧ Fits r
  decodes : ∀ d (a : α) d', decode d = .ok a d' ↔
    ∃ r, Record.decode (schema α) d = .ok r d' ∧ r.Shows (fields a)
  fails : ∀ d e d', Record.decode (schema α) d = .error e d' → decode (α := α) d = .error e d'
  passes : ∀ d (records : List α) d', DecodesTo decode d records d' ↔
    ∃ generics, DecodesTo (Record.decode (schema α)) d generics d' ∧
      List.Forall₂ (fun a r => r.Shows (fields a)) records generics
  encodes : ∀ a : α, ∃ r, (Record.ofSchema (schema α)).setAll (fields a) = .ok r ∧
    r.Shows (fields a) ∧ r.encode = RecordType.encode a

/-- The type reads what the generic decoder reads and then admits some of it. -/
structure Narrows {β : Type} (fields : α → List (Bytes × Value)) (Fits : Record → Prop)
    (raw : Decoding β) (spread : β → Record) (narrow : β → Except FormatError α) : Prop where
  generic : Record.decode (schema α) = spread <$> raw
  typed : decode (α := α) = raw >>= fun x => check (narrow x)
  shows_iff : ∀ x a, (spread x).Shows (fields a) ↔ narrow x = .ok a
  fits_iff : ∀ x, Fits (spread x) ↔ ∃ a, narrow x = .ok a

namespace Narrows

variable {β : Type} {fields : α → List (Bytes × Value)} {Fits : Record → Prop}
  {raw : Decoding β} {spread : β → Record} {narrow : β → Except FormatError α} {d d' : Decoder}

theorem decode_eq_ok_iff (h : Narrows fields Fits raw spread narrow) {a : α} :
    decode d = .ok a d' ↔ ∃ x, raw d = .ok x d' ∧ narrow x = .ok a := by
  rw [h.typed, bind_eq_ok_iff]
  constructor
  · rintro ⟨x, d₁, hraw, hcheck⟩
    obtain ⟨hnarrow, rfl⟩ := check_eq_ok_iff.1 hcheck
    exact ⟨x, hraw, hnarrow⟩
  · rintro ⟨x, hraw, hnarrow⟩
    exact ⟨x, d', hraw, check_eq_ok_iff.2 ⟨hnarrow, rfl⟩⟩

theorem generic_eq_ok_iff (h : Narrows fields Fits raw spread narrow) {P : Record → Prop} :
    (∃ r, Record.decode (schema α) d = .ok r d' ∧ P r) ↔ ∃ x, raw d = .ok x d' ∧ P (spread x) := by
  simp only [h.generic, Runs.map_eq_ok_iff]
  constructor
  · rintro ⟨_, ⟨x, hraw, rfl⟩, hp⟩
    exact ⟨x, hraw, hp⟩
  · rintro ⟨x, hraw, hp⟩
    exact ⟨_, ⟨x, hraw, rfl⟩, hp⟩

theorem decodes (h : Narrows fields Fits raw spread narrow) (a : α) :
    decode d = .ok a d' ↔
      ∃ r, Record.decode (schema α) d = .ok r d' ∧ r.Shows (fields a) := by
  simp only [h.decode_eq_ok_iff, h.generic_eq_ok_iff, h.shows_iff]

theorem succeeds (h : Narrows fields Fits raw spread narrow) :
    (∃ a : α, decode d = .ok a d') ↔
      ∃ r, Record.decode (schema α) d = .ok r d' ∧ Fits r := by
  simp only [h.decode_eq_ok_iff, h.generic_eq_ok_iff, h.fits_iff]
  constructor
  · rintro ⟨a, x, hraw, hnarrow⟩
    exact ⟨x, hraw, a, hnarrow⟩
  · rintro ⟨x, hraw, a, hnarrow⟩
    exact ⟨a, x, hraw, hnarrow⟩

theorem fails (h : Narrows fields Fits raw spread narrow) {e : FormatError}
    (hfail : Record.decode (schema α) d = .error e d') : decode (α := α) d = .error e d' := by
  rw [h.generic] at hfail
  rw [h.typed]
  cases hraw : raw d with
  | ok x d₁ => cases (Runs.map_of_ok spread hraw).symm.trans hfail
  | error e₁ d₁ =>
    cases (Runs.map_of_error spread hraw).symm.trans hfail
    exact Runs.bind_of_error hraw

/-- What holds of each record holds of a whole payload. -/
theorem passes (h : Narrows fields Fits raw spread narrow) (records : List α) :
    DecodesTo decode d records d' ↔
      ∃ generics, DecodesTo (Record.decode (schema α)) d generics d' ∧
        List.Forall₂ (fun a r => r.Shows (fields a)) records generics := by
  constructor
  · intro hrun
    induction records generalizing d with
    | nil => exact ⟨[], hrun, .nil⟩
    | cons a rest ih =>
      obtain ⟨d₁, hfirst, hrest⟩ := hrun
      obtain ⟨r, hgeneric, hshows⟩ := (h.decodes a).1 hfirst
      obtain ⟨generics, hgenerics, hall⟩ := ih hrest
      exact ⟨r :: generics, ⟨d₁, hgeneric, hgenerics⟩, .cons hshows hall⟩
  · rintro ⟨generics, hrun, hall⟩
    induction hall generalizing d with
    | nil => exact hrun
    | @cons a r _ _ hshows _ ih =>
      obtain ⟨d₁, hfirst, hrest⟩ := hrun
      exact ⟨d₁, (h.decodes a).2 ⟨r, hfirst, hshows⟩, ih hrest⟩

end Narrows

/-- The generic record of a value is set field by field and is encoded as the value is. -/
theorem encodes_setAll [LawfulRecord α] (a : α) {fields : List (Bytes × Value)}
    (hset : (Record.ofSchema (schema α)).setAll fields = .ok (LawfulRecord.toRecord a))
    (hshows : (LawfulRecord.toRecord a).Shows fields) :
    ∃ r, (Record.ofSchema (schema α)).setAll fields = .ok r ∧ r.Shows fields ∧
      r.encode = RecordType.encode a := by
  refine ⟨_, hset, hshows, ?_⟩
  rw [Record.encode_of_wellTyped (LawfulRecord.wellTyped a), ← LawfulRecord.encode_eq]
  rfl

theorem agrees_of_narrows [LawfulRecord α] {β : Type} {fields : α → List (Bytes × Value)}
    {Fits : Record → Prop} {raw : Decoding β} {spread : β → Record}
    {narrow : β → Except FormatError α} (h : Narrows fields Fits raw spread narrow)
    (hname : (schema α).name ≠ []) (hfields : ∀ f ∈ (schema α).fields, f.name ≠ [])
    (hset : ∀ a, (Record.ofSchema (schema α)).setAll (fields a) = .ok (LawfulRecord.toRecord a))
    (hshows : ∀ a, (LawfulRecord.toRecord a).Shows (fields a)) : Agrees α fields Fits where
  printed := Schema.ofJson_toJson hname hfields
  generic h b hwritten hb := by
    change (do return Record.decode (← b.resolve h)) = _
    rw [hb.resolve hwritten]
    rfl
  typed h b hwritten := by
    change (do accept α h; return decode) = _
    rw [accept_of_written hwritten]
    rfl
  succeeds _ _ := h.succeeds
  decodes _ a _ := h.decodes a
  fails _ _ _ hfail := h.fails hfail
  passes _ records _ := h.passes records
  encodes a := encodes_setAll a (hset a) (hshows a)

end TypedRecord

namespace Bird

def fields (b : Bird) : List (Bytes × Value) :=
  [("number", .long b.number), ("species", .string b.species), ("quality", .string b.quality),
    ("quantity", .long b.quantity)]

theorem shows_iff (b c : Bird) : (LawfulRecord.toRecord b).Shows c.fields ↔ b = c := by
  have hnumber : (LawfulRecord.toRecord b).get "number" = .ok (.long b.number) := rfl
  have hspecies : (LawfulRecord.toRecord b).get "species" = .ok (.string b.species) := rfl
  have hquality : (LawfulRecord.toRecord b).get "quality" = .ok (.string b.quality) := rfl
  have hquantity : (LawfulRecord.toRecord b).get "quantity" = .ok (.long b.quantity) := rfl
  cases b
  cases c
  simp [fields, hnumber, hspecies, hquality, hquantity]

theorem decode_schema :
    Record.decode schema = (LawfulRecord.toRecord : Bird → Record) <$> decode := by
  simp only [Record.decode, schema, List.mapM_cons, List.mapM_nil, Value.decode, decode,
    bind_assoc, pure_bind, map_bind, map_pure]
  rfl

/-- Every record that the generic decoder reads is a bird. -/
theorem narrows :
    TypedRecord.Narrows fields (fun _ => True) decode LawfulRecord.toRecord Except.ok where
  generic := decode_schema
  typed := (bind_pure decode).symm
  shows_iff b c := by rw [shows_iff, Except.ok.injEq]
  fits_iff b := ⟨fun _ => ⟨b, rfl⟩, fun _ => trivial⟩

end Bird

namespace FixedRecord

def fields (r : FixedRecord) : List (Bytes × Value) := [("value", .bytes r.value)]

def Fits (r : Record) : Prop := ∃ b, r.get "value" = .ok (.bytes b) ∧ b.length = size

def spread (b : Bytes) : Record where
  schema := schema
  values := [.bytes b]

def narrow (b : Bytes) : Except FormatError FixedRecord :=
  if h : b.length = 15 then .ok ⟨b, h⟩ else .error (.fixedRecordSize b.length)

theorem get_spread (b : Bytes) : (spread b).get "value" = .ok (.bytes b) := rfl

theorem narrow_eq_ok_iff {b : Bytes} {r : FixedRecord} : narrow b = .ok r ↔ b = r.value := by
  rw [narrow]
  constructor
  · intro h
    split at h
    · cases h
      rfl
    · cases h
  · rintro rfl
    rw [dif_pos r.length_eq]

theorem decode_schema : Record.decode schema = spread <$> Decoder.readBytes := by
  simp only [Record.decode, schema, List.mapM_cons, List.mapM_nil, Value.decode, bind_assoc,
    pure_bind, map_eq_pure_bind]
  rfl

theorem decode_eq : decode = Decoder.readBytes >>= fun b => check (narrow b) := by
  unfold decode
  congr 1
  funext b
  rw [narrow]
  split <;> rfl

/-- Of the records that the generic decoder reads those of the one size are admitted. -/
theorem narrows : TypedRecord.Narrows fields Fits Decoder.readBytes spread narrow where
  generic := decode_schema
  typed := decode_eq
  shows_iff b r := by
    simp [fields, get_spread, narrow_eq_ok_iff]
  fits_iff b := by
    constructor
    · rintro ⟨c, hget, hlength⟩
      cases (get_spread b).symm.trans hget
      exact ⟨⟨b, hlength⟩, narrow_eq_ok_iff.2 rfl⟩
    · rintro ⟨r, hnarrow⟩
      obtain rfl := narrow_eq_ok_iff.1 hnarrow
      exact ⟨r.value, get_spread _, r.length_eq⟩

end FixedRecord

/-- Whatever the header and the payload, the ways to read records with the schema of birds agree,
and so do those to read records of a fixed size, where just the records of this size can be had. -/
theorem TypedRecord.bindings_agree :
    Agrees Bird Bird.fields (fun _ => True) ∧
      Agrees FixedRecord FixedRecord.fields FixedRecord.Fits := by
  constructor
  · apply agrees_of_narrows Bird.narrows (by decide) (by decide) (fun _ => rfl)
    intro b
    exact (Bird.shows_iff b b).2 rfl
  · apply agrees_of_narrows FixedRecord.narrows (by decide) (by decide) (fun _ => rfl)
    intro r
    exact (FixedRecord.narrows.shows_iff r.value r).2 (FixedRecord.narrow_eq_ok_iff.2 rfl)

def birdHeader : Header where
  metadata := .ofList [(Header.schemaKey, Bird.schema.toJson)]

def owl : Bird where
  number := 1
  species := "owl"
  quality := []
  quantity := -2

def owlBytes : Bytes := [2, 6, 111, 119, 108, 0, 3, 7]

/-- An owl can be read both ways; three bytes can be read only as a generic record. -/
theorem TypedRecord.bindings_agree_owl :
    RecordType.decoding .ofFile birdHeader = .ok (Record.decode Bird.schema) ∧
      RecordType.decoding (.ofJson Bird.schema.toJson) birdHeader =
        .ok (Record.decode Bird.schema) ∧
      RecordType.decoding .ofFile birdHeader = .ok Bird.decode ∧
      (∃ r, Record.decode Bird.schema (.ofBytes owlBytes) =
        .ok r ((Decoder.ofBytes owlBytes).move 7) ∧ r.Shows owl.fields) ∧
      ∀ r d, Record.decode FixedRecord.schema (.ofBytes [6, 1, 2, 3]) = .ok r d →
        ¬ FixedRecord.Fits r := by
  have hbirds := bindings_agree.1
  have hwritten : Schema.ofJson birdHeader.schemaJson = .ok Bird.schema := hbirds.printed
  refine ⟨hbirds.generic _ _ hwritten .ofFile, hbirds.generic _ _ hwritten (.ofJson hbirds.printed),
    hbirds.typed _ _ hwritten, (hbirds.decodes _ owl _).1 rfl, ?_⟩
  intro r d hrun hfits
  obtain ⟨a, hdecode⟩ := (bindings_agree.2.succeeds _ _).2 ⟨r, hrun, hfits⟩
  have hrefused : FixedRecord.decode (.ofBytes [6, 1, 2, 3]) =
      .error (.fixedRecordSize 3) ((Decoder.ofBytes [6, 1, 2, 3]).move 4) := rfl
  cases hrefused.symm.trans hdecode

end BlockContainer
