import BlockContainer.Proofs.Json.Utf8
import BlockContainer.Proofs.Schema.RoundTrip

/-! # Reading a schema again from the form it is written in

A schema that was read from any JSON text has names, so the form it is written in reads as the
same schema. Texts in UTF-8 stay in UTF-8 on the way: those of a schema become a JSON text in
UTF-8, and a JSON text in UTF-8 gives a schema with such texts.
-/
namespace BlockContainer

namespace Json
open Bytes

theorem Tree.Holds.child? {P : Bytes → Prop} {t child : Tree} {key : Bytes} (h : t.Holds P)
    (hchild : t.child? key = some child) : child.Holds P := by
  obtain ⟨c, hc, rfl⟩ := Option.map_eq_some_iff.1 hchild
  exact h.children c (List.mem_of_find?_eq_some hc)

theorem Tree.Holds.childText? {P : Bytes → Prop} {t : Tree} {key text : Bytes} (h : t.Holds P)
    (htext : t.childText? key = some text) : P text := by
  obtain ⟨child, hchild, rfl⟩ := Option.map_eq_some_iff.1 htext
  exact (h.child? hchild).text

theorem quotedByte_cases (c : UInt8) : c < 0x80 ∧ Ascii (quotedByte c) ∨ quotedByte c = [c] :=
  forall_byte (P := fun c => c < 0x80 ∧ Ascii (quotedByte c) ∨ quotedByte c = [c])
    (by decide +kernel) c

/-- Quoting escapes only ASCII bytes, and leaves all other characters whole. -/
theorem escaped_utf8 {text : Bytes} (h : IsUtf8 text) : IsUtf8 (text.flatMap quotedByte) := by
  induction h with
  | nil => exact .nil
  | cons d _ ih =>
    rw [List.flatMap_append]
    refine .append ?_ ih
    by_cases hplain : ∀ c ∈ String.utf8EncodeChar d, quotedByte c = [c]
    · rw [List.flatMap_def, List.map_congr_left hplain, ← List.flatMap_def,
        List.flatMap_singleton', ← List.append_nil (String.utf8EncodeChar d)]
      exact .cons d .nil
    · obtain ⟨c, hc, hescape⟩ := by simpa using hplain
      rcases quotedByte_cases c with ⟨hascii, hescaped⟩ | hsame
      · rcases encode_cases d hc with hhigh | hone
        · exact absurd hascii (UInt8.not_lt.2 hhigh)
        · rw [hone, List.flatMap_singleton]
          exact .of_ascii hescaped
      · exact absurd hsame hescape

theorem quoted_utf8 {text : Bytes} (h : IsUtf8 text) : IsUtf8 (quoted text) :=
  .ascii_cons (by decide) ((escaped_utf8 h).append (.of_ascii (by decide)))

end Json

namespace Schema
open Json Bytes

variable {P : Bytes → Prop} {s : Schema} {t : Tree}

structure Named (s : Schema) : Prop where
  schema : s.name ≠ []
  fields : ∀ f ∈ s.fields, f.name ≠ []

/-- The names and the name space of a schema are of this kind. -/
structure Holds (P : Bytes → Prop) (s : Schema) : Prop where
  name : P s.name
  nameSpace : P s.nameSpace
  fields : ∀ f ∈ s.fields, P f.name

section Reading

theorem field_cases {schema : Bytes} {f : Field} (h : field schema t = .ok f) :
    f.name ≠ [] ∧ t.childText? "name" = some f.name := by
  unfold field at h
  split at h
  · cases h
  · cases h
  · next name hne hname =>
    split at h
    · cases h
    · next type htype =>
      cases hfound : fieldType name type with
      | error cause =>
        rw [hfound] at h
        cases h
      | ok type =>
        rw [hfound] at h
        cases h
        exact ⟨hne, hname⟩

theorem mapM_field_cases {schema : Bytes} {children : List (Bytes × Tree)} {fields : List Field}
    (h : children.mapM (fun c => field schema c.2) = .ok fields) :
    ∀ f ∈ fields, ∃ c ∈ children, field schema c.2 = .ok f := by
  induction children generalizing fields with
  | nil =>
    cases h
    exact fun f hf => absurd hf List.not_mem_nil
  | cons c rest ih =>
    rw [List.mapM_cons] at h
    cases hfirst : field schema c.2 with
    | error cause =>
      rw [hfirst] at h
      cases h
    | ok f =>
      rw [hfirst] at h
      cases hrest : rest.mapM fun c => field schema c.2 with
      | error cause =>
        simp only [hrest] at h
        cases h
      | ok more =>
        simp only [hrest] at h
        cases h
        intro g hg
        rcases List.mem_cons.1 hg with rfl | hg
        · exact ⟨c, List.mem_cons_self, hfirst⟩
        · obtain ⟨d, hd, hfield⟩ := ih hrest g hg
          exact ⟨d, List.mem_cons_of_mem c hd, hfield⟩

theorem ofTree_cases (h : ofTree t = .ok s) :
    s.name ≠ [] ∧ t.childText? "name" = some s.name ∧
      s.nameSpace = (t.childText? "namespace").getD [] ∧
      ∃ fields, t.child? "fields" = some fields ∧
        ∀ f ∈ s.fields, ∃ c ∈ fields.children, field s.name c.2 = .ok f := by
  unfold ofTree at h
  split at h
  · cases h
  · split at h
    · cases h
    · cases h
    · next name hne hname =>
      split at h
      · cases h
      · next list hlist =>
        cases hfields : list.children.mapM fun c => field name c.2 with
        | error cause =>
          rw [hfields] at h
          cases h
        | ok fields =>
          rw [hfields] at h
          cases h
          exact ⟨hne, hname, rfl, list, hlist, mapM_field_cases hfields⟩

theorem named_of_ofTree (h : ofTree t = .ok s) : s.Named := by
  obtain ⟨hname, -, -, fields, -, hfields⟩ := ofTree_cases h
  refine ⟨hname, fun f hf => ?_⟩
  obtain ⟨c, -, hc⟩ := hfields f hf
  exact (field_cases hc).1

/-- The texts of a schema are texts of the tree it is read from. -/
theorem holds_of_ofTree (hempty : P []) (ht : t.Holds P) (h : ofTree t = .ok s) : s.Holds P := by
  obtain ⟨-, hname, hspace, fields, hlist, hfields⟩ := ofTree_cases h
  constructor
  case name => exact ht.childText? hname
  case nameSpace =>
    rw [hspace]
    cases hfound : t.childText? "namespace" with
    | none => exact hempty
    | some text => exact ht.childText? hfound
  case fields =>
    intro f hf
    obtain ⟨c, hc, hfield⟩ := hfields f hf
    exact ((ht.child? hlist).children c hc).childText? (field_cases hfield).2

end Reading

section Writing

theorem fieldJson_utf8 {f : Field} (h : IsUtf8 f.name) : IsUtf8 (fieldJson f) := by
  have htype : IsUtf8 f.type.name := .of_ascii (by cases f.type <;> decide)
  have hname : IsUtf8 (("\x7b\"name\":" : Bytes) ++ quoted f.name) :=
    .append (.of_ascii (by decide)) (quoted_utf8 h)
  exact ((hname.append (.of_ascii (by decide))).append (quoted_utf8 htype)).append
    (.of_ascii (by decide))

theorem fieldsJson_utf8 {fields : List Field} (h : ∀ f ∈ fields, IsUtf8 f.name) :
    IsUtf8 (Bytes.intercalate "," (fields.map fieldJson)) := by
  induction fields with
  | nil => exact .nil
  | cons f rest ih =>
    have hf := fieldJson_utf8 (h f List.mem_cons_self)
    have hrest := ih fun g hg => h g (List.mem_cons_of_mem f hg)
    cases rest with
    | nil => simpa [Bytes.intercalate] using hf
    | cons g rest =>
      have hmore := hf.append ((IsUtf8.of_ascii (b := ",") (by decide)).append hrest)
      simpa [Bytes.intercalate, List.intercalate] using hmore

theorem nameSpaceJson_utf8 {nameSpace : Bytes} (h : IsUtf8 nameSpace) :
    IsUtf8 (nameSpaceJson nameSpace) := by
  rw [nameSpaceJson]
  split
  · exact .nil
  · exact .append (.of_ascii (by decide)) (quoted_utf8 h)

theorem toJson_utf8 (h : s.Holds IsUtf8) : IsUtf8 s.toJson := by
  have hname : IsUtf8 (("\x7b\"type\":\"record\",\"name\":" : Bytes) ++ quoted s.name) :=
    .append (.of_ascii (by decide)) (quoted_utf8 h.name)
  have hspace := hname.append (nameSpaceJson_utf8 h.nameSpace)
  exact ((hspace.append (.of_ascii (by decide))).append (fieldsJson_utf8 h.fields)).append
    (.of_ascii (by decide))

end Writing

/-- A schema with names comes back from the form it is written in, and any schema that was read
from JSON has names. Both ways keep UTF-8. -/
theorem ofJson_rereads :
    (∀ s : Schema, s.Named → ofJson s.toJson = .ok s ∧ (s.Holds IsUtf8 → IsUtf8 s.toJson)) ∧
      ∀ json s, ofJson json = .ok s → s.Named ∧ ofJson s.toJson = .ok s ∧
        (IsUtf8 json → s.Holds IsUtf8 ∧ IsUtf8 s.toJson) := by
  refine ⟨fun s hs => ⟨ofJson_toJson hs.schema hs.fields, toJson_utf8⟩, fun json s h => ?_⟩
  obtain ⟨t, ht, htree⟩ : ∃ t, Tree.ofText? json = some t ∧ ofTree t = .ok s := by
    rw [ofJson] at h
    split at h
    · cases h
    · next t ht => exact ⟨t, ht, h⟩
  have hnamed := named_of_ofTree htree
  refine ⟨hnamed, ofJson_toJson hnamed.schema hnamed.fields, fun hutf8 => ?_⟩
  have hholds := holds_of_ofTree .nil (Tree.ofText?_utf8 ht hutf8) htree
  exact ⟨hholds, toJson_utf8 hholds⟩

def owlJson : Bytes :=
  "\x7b\"doc\": [1, -2.5e3, null], \"fields\": [\n" ++
  "\x7b\"type\": \x7b\"type\": \"long\", \"unit\": \"day\"\x7d, \"name\": \"\\u0061\\/\\n\"\x7d,\n" ++
  "\x7b\"name\": \"\\ud83e\\udd89\", \"type\": \"string\"\x7d],\n" ++
  "\"name\": \"Owl\", \"type\": \"record\"\x7d"

def owlSchema : Schema where
  name := "Owl"
  fields := [⟨"a/\n", .long⟩, ⟨[0xf0, 0x9f, 0xa6, 0x89], .string⟩]

def lineSchema : Schema where
  name := "Line\nBreak"
  nameSpace := "name\rspace"
  fields := [⟨"bell\x07", .long⟩, ⟨"quote\"back\\slash", .int⟩, ⟨"bell\x07", .bytes⟩]

theorem ofJson_rereads_owls :
    ofJson lineSchema.toJson = .ok lineSchema ∧ IsUtf8 lineSchema.toJson ∧
      ofJson owlJson = .ok owlSchema ∧ ofJson owlSchema.toJson = .ok owlSchema ∧
      IsUtf8 owlSchema.toJson := by
  obtain ⟨hwrites, hreads⟩ := ofJson_rereads
  obtain ⟨hline, hlineUtf8⟩ := hwrites lineSchema ⟨by decide, by decide⟩
  have howl : ofJson owlJson = .ok owlSchema := by
    have hrun : (ofJson owlJson).toOption = some owlSchema := by decide +kernel
    cases h : ofJson owlJson with
    | error cause => simp [h, Except.toOption] at hrun
    | ok s => simpa [h, Except.toOption] using hrun
  obtain ⟨-, hagain, howlUtf8⟩ := hreads owlJson owlSchema howl
  refine ⟨hline, hlineUtf8 ?_, howl, hagain, (howlUtf8 (.of_ascii (by decide +kernel))).2⟩
  refine ⟨.of_ascii (by decide), .of_ascii (by decide), ?_⟩
  have hascii : ∀ f ∈ lineSchema.fields, Ascii f.name := by decide
  exact fun f hf => .of_ascii (hascii f hf)

end Schema
end BlockContainer
