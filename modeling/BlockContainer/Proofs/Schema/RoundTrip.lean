import BlockContainer.Proofs.Runs
import BlockContainer.Schema.Json

/-! # Schemas come back from their JSON form

The text that is written for a schema is cut into the lexemes that it was put together from,
these build one tree, and the tree describes the schema again. Names may hold any bytes, but
must not be empty.
-/
namespace BlockContainer

namespace Json

theorem hexValue?_hexDigit : ∀ n < 16, hexValue? (Bytes.hexDigit n) = some n := by decide

theorem letterEscape?_escapeLetter {c letter : UInt8} (h : escapeLetter? c = some letter) :
    letter ≠ 0x75 ∧ letterEscape? letter = some c := by
  unfold escapeLetter? at h
  split at h
  · next hc =>
    cases h
    rcases hc with rfl | rfl <;> decide
  · split at h
    · cases h; subst c; decide
    · split at h
      · cases h; subst c; decide
      · split at h
        · cases h; subst c; decide
        · split at h
          · cases h; subst c; decide
          · split at h
            · cases h; subst c; decide
            · cases h

/-- A control character comes back from its hexadecimal escape. -/
theorem escape?_control {c : UInt8} (h : c < 0x20) (t : Bytes) :
    escape? (0x75 :: 0x30 :: 0x30 :: (Bytes.byteHex c ++ t)) = some ([c], t) := by
  have hc : c.toNat < 32 := UInt8.lt_iff_toNat_lt.1 h
  have hhigh := hexValue?_hexDigit (c.toNat / 16) (by omega)
  have hlow := hexValue?_hexDigit (c.toNat % 16) (by omega)
  have hzero : hexValue? 0x30 = some 0 := by decide
  have hunit : codeUnit? (0x30 :: 0x30 :: (Bytes.byteHex c ++ t)) = some (c.toNat, t) := by
    simp only [codeUnit?, Bytes.byteHex, List.cons_append, List.nil_append, hhigh, hlow, hzero,
      Option.bind_eq_bind, Option.bind_some]
    have hsum : ((0 * 16 + 0) * 16 + c.toNat / 16) * 16 + c.toNat % 16 = c.toNat := by omega
    rw [hsum]
  have hplain : isHighSurrogate c.toNat = false ∧ isLowSurrogate c.toNat = false := by
    simp only [isHighSurrogate, isLowSurrogate, Bool.and_eq_false_iff, decide_eq_false_iff_not]
    omega
  have hpoint : codePoint? (0x30 :: 0x30 :: (Bytes.byteHex c ++ t)) = some (c.toNat, t) := by
    simp only [codePoint?, hunit, hplain, Option.bind_eq_bind, Option.bind_some,
      Bool.false_eq_true, if_false]
  have hutf8 : utf8 c.toNat = [c] := by
    rw [utf8, if_pos (by omega), UInt8.ofNat_toNat]
  rw [escape?, if_pos rfl, hpoint, Option.map_some]
  simp only [hutf8]

theorem stringBody?_escape {input text rest : Bytes} (h : escape? input = some (text, rest)) :
    stringBody? (backslash :: input) =
      (stringBody? rest).map fun (more, tail) => (text ++ more, tail) := by
  rw [stringBody?, if_neg (by decide), if_pos rfl]
  split
  · next hnone => simp [h] at hnone
  · next text' rest' hsome =>
    rw [h] at hsome
    cases hsome
    rfl

theorem stringBody?_quotedByte (c : UInt8) (t : Bytes) :
    stringBody? (quotedByte c ++ t) = (stringBody? t).map fun (more, tail) => (c :: more, tail) := by
  cases hletter : escapeLetter? c with
  | some letter =>
    obtain ⟨hne, hescape⟩ := letterEscape?_escapeLetter hletter
    have h : escape? (letter :: t) = some ([c], t) := by
      rw [escape?, if_neg hne, hescape, Option.map_some]
    simp only [quotedByte, hletter]
    exact stringBody?_escape h
  | none =>
    by_cases hcontrol : c < 0x20
    · simp only [quotedByte, hletter, hcontrol, if_true]
      exact stringBody?_escape (escape?_control hcontrol t)
    · have hplain : ¬(c = quote ∨ c = backslash) := by
        intro h
        rw [escapeLetter?, if_pos h] at hletter
        cases hletter
      rw [not_or] at hplain
      simp only [quotedByte, hletter, hcontrol, if_false, List.cons_append, List.nil_append]
      rw [stringBody?, if_neg hplain.1, if_neg hplain.2, if_neg hcontrol]

theorem stringBody?_quoted (text t : Bytes) :
    stringBody? (text.flatMap quotedByte ++ quote :: t) = some (text, t) := by
  induction text with
  | nil => rw [List.flatMap_nil, List.nil_append, stringBody?, if_pos rfl]
  | cons c rest ih =>
    rw [List.flatMap_cons, List.append_assoc, stringBody?_quotedByte, ih, Option.map_some]

/-- The bytes are these lexemes, whatever follows. -/
def Lexes (b : Bytes) (ts : List Token) : Prop :=
  ∀ t, tokens? (b ++ t) = (tokens? t).map (ts ++ ·)

namespace Lexes

variable {b c : Bytes} {ts us : List Token}

theorem nil : Lexes [] [] := by
  intro t
  cases h : tokens? t <;> simp [h]

theorem append (hb : Lexes b ts) (hc : Lexes c us) : Lexes (b ++ c) (ts ++ us) := by
  intro t
  rw [List.append_assoc, hb, hc, Option.map_map]
  congr 1
  funext more
  exact (List.append_assoc ts us more).symm

theorem punctuation {x : UInt8} {token : Token} (hblank : isBlank x = false)
    (h : punctuation? x = some token) : Lexes [x] [token] := by
  intro t
  rw [List.singleton_append, tokens?, if_neg (by simp [hblank]), h]
  rfl

theorem quoted (text : Bytes) : Lexes (Json.quoted text) [.string text] := by
  intro t
  have hbody : Json.quoted text ++ t = quote :: (text.flatMap quotedByte ++ quote :: t) := by
    simp [Json.quoted]
  rw [hbody, tokens?, if_neg (by decide)]
  have hnone : punctuation? quote = none := by decide
  simp only [hnone, if_true]
  split
  · next h => simp [stringBody?_quoted] at h
  · next text' rest h =>
    rw [stringBody?_quoted] at h
    cases h
    rfl

end Lexes

/-- The lexemes are a value that builds the tree, wherever it stands. -/
def Tree.Builds (ts : List Token) (tree : Tree) : Prop :=
  ∀ stack rest, Tree.build .value stack (ts ++ rest) = Tree.build (.separator tree) stack rest

end Json

namespace Schema
open Json

def memberTokens (key : Bytes) (value : List Token) : List Token :=
  .string key :: .colon :: value

def fieldTokens (f : Field) : List Token :=
  .openObject :: memberTokens "name" [.string f.name] ++
    .comma :: memberTokens "type" [.string f.type.name] ++ [.closeObject]

def fieldsTokens : List Field → List Token
  | [] => []
  | [f] => fieldTokens f
  | f :: g :: rest => fieldTokens f ++ .comma :: fieldsTokens (g :: rest)

def nameSpaceTokens (nameSpace : Bytes) : List Token :=
  if nameSpace.isEmpty then [] else .comma :: memberTokens "namespace" [.string nameSpace]

def tokens (s : Schema) : List Token :=
  .openObject :: memberTokens "type" [.string "record"] ++
    .comma :: memberTokens "name" [.string s.name] ++ nameSpaceTokens s.nameSpace ++
    .comma :: memberTokens "fields" (.openArray :: fieldsTokens s.fields ++ [.closeArray]) ++
    [.closeObject]

theorem lexes_comma : Lexes "," [.comma] := .punctuation (by decide) (by decide)

theorem lexes_open : Lexes "\x7b" [.openObject] := .punctuation (by decide) (by decide)

theorem lexes_close : Lexes "\x7d" [.closeObject] := .punctuation (by decide) (by decide)

theorem lexes_member (key : Bytes) {b : Bytes} {ts : List Token} (h : Lexes b ts) :
    Lexes (quoted key ++ (":" : Bytes) ++ b) (memberTokens key ts) := by
  have hcolon : Lexes ":" [.colon] := .punctuation (by decide) (by decide)
  exact ((Lexes.quoted key).append hcolon).append h

theorem lexes_field (f : Field) : Lexes (fieldJson f) (fieldTokens f) := by
  have hname : ("\x7b\"name\":" : Bytes) = "\x7b" ++ (quoted "name" ++ (":" : Bytes)) := by decide
  have htype : (",\"type\":" : Bytes) = "," ++ (quoted "type" ++ (":" : Bytes)) := by decide
  have h := (lexes_open.append (lexes_member "name" (.quoted f.name))).append
    (lexes_comma.append ((lexes_member "type" (.quoted f.type.name)).append lexes_close))
  rw [fieldJson, hname, htype]
  simpa [fieldTokens] using h

theorem lexes_fields (fields : List Field) :
    Lexes (Bytes.intercalate "," (fields.map fieldJson)) (fieldsTokens fields) := by
  induction fields with
  | nil => exact Lexes.nil
  | cons f rest ih =>
    cases rest with
    | nil => simpa [Bytes.intercalate, fieldsTokens] using lexes_field f
    | cons g rest =>
      have h := (lexes_field f).append (lexes_comma.append ih)
      simpa [Bytes.intercalate, fieldsTokens, List.intercalate] using h

theorem lexes_nameSpace (nameSpace : Bytes) :
    Lexes (nameSpaceJson nameSpace) (nameSpaceTokens nameSpace) := by
  have hkey : (",\"namespace\":" : Bytes) = "," ++ (quoted "namespace" ++ (":" : Bytes)) := by
    decide
  by_cases hempty : nameSpace.isEmpty = true
  · rw [nameSpaceJson, nameSpaceTokens, if_pos hempty, if_pos hempty]
    exact Lexes.nil
  · have h := lexes_comma.append (lexes_member "namespace" (.quoted nameSpace))
    rw [nameSpaceJson, nameSpaceTokens, if_neg hempty, if_neg hempty, hkey]
    simpa using h

theorem lexes_toJson (s : Schema) : Lexes s.toJson s.tokens := by
  have hstart : ("\x7b\"type\":\"record\",\"name\":" : Bytes) =
      "\x7b" ++ (quoted "type" ++ (":" : Bytes) ++ quoted "record") ++ "," ++
        (quoted "name" ++ (":" : Bytes)) := by
    decide
  have hfields : (",\"fields\":[" : Bytes) =
      "," ++ (quoted "fields" ++ (":" : Bytes)) ++ "[" := by
    decide
  have hend : ("]\x7d" : Bytes) = "]" ++ "\x7d" := by decide
  have hopen : Lexes "[" [.openArray] := .punctuation (by decide) (by decide)
  have hclose : Lexes "]" [.closeArray] := .punctuation (by decide) (by decide)
  have hhead := (lexes_open.append (lexes_member "type" (.quoted "record"))).append
    (lexes_comma.append (lexes_member "name" (.quoted s.name)))
  have hlist := (hopen.append (lexes_fields s.fields)).append hclose
  have h := (hhead.append (lexes_nameSpace s.nameSpace)).append
    (lexes_comma.append ((lexes_member "fields" hlist).append lexes_close))
  rw [toJson, hstart, hfields, hend]
  simpa [tokens] using h

def member (key : Bytes) (t : Tree) : Bytes × Tree := (key, t)

def fieldTree (f : Field) : Tree :=
  .node [] [member "name" (.leaf f.name), member "type" (.leaf f.type.name)]

def elements (fields : List Field) : List (Bytes × Tree) :=
  fields.map fun f => member [] (fieldTree f)

def nameSpaceMembers (nameSpace : Bytes) : List (Bytes × Tree) :=
  if nameSpace.isEmpty then [] else [member "namespace" (.leaf nameSpace)]

def tree (s : Schema) : Tree :=
  .node [] ([member "type" (.leaf "record"), member "name" (.leaf s.name)] ++
    nameSpaceMembers s.nameSpace ++ [member "fields" (.node [] (elements s.fields))])

theorem builds_field (f : Field) : Tree.Builds (fieldTokens f) (fieldTree f) := by
  intro stack rest
  rfl

/-- Fields build on the elements of an array that are finished already. -/
theorem build_fields {fields : List Field} (hne : fields ≠ []) (done : List (Bytes × Tree))
    (stack : List Tree.Frame) (rest : List Token) :
    Tree.build .value (.array done :: stack) (fieldsTokens fields ++ .closeArray :: rest) =
      Tree.build (.separator (.node [] (done.reverse ++ elements fields))) stack rest := by
  induction fields generalizing done with
  | nil => exact absurd rfl hne
  | cons f fields ih =>
    cases fields with
    | nil =>
      rw [fieldsTokens, builds_field]
      simp [Tree.build, Tree.close, elements, member]
    | cons g fields =>
      have hnext := ih (by simp) (([], fieldTree f) :: done)
      rw [fieldsTokens, List.append_assoc, builds_field, List.cons_append, Tree.build, hnext]
      simp [elements, member]

theorem builds_fields (fields : List Field) :
    Tree.Builds (.openArray :: fieldsTokens fields ++ [.closeArray])
      (.node [] (elements fields)) := by
  intro stack rest
  cases fields with
  | nil => rfl
  | cons f fields =>
    obtain ⟨ts, hts⟩ : ∃ ts, fieldsTokens (f :: fields) = .openObject :: ts := by
      cases fields <;> exact ⟨_, rfl⟩
    -- An element may stand where the array could also end.
    have hfirst : Tree.build .value stack (.openArray :: fieldsTokens (f :: fields) ++
        [.closeArray] ++ rest) =
        Tree.build .value (.array [] :: stack) (fieldsTokens (f :: fields) ++ .closeArray :: rest) := by
      rw [hts, List.append_assoc]
      rfl
    rw [hfirst, build_fields (by simp)]
    rfl

theorem ofTokens?_tokens (s : Schema) : Tree.ofTokens? s.tokens = some s.tree := by
  have hfields (done : List (Bytes × Tree)) :
      Tree.build .value [.object done "fields"]
        (.openArray :: fieldsTokens s.fields ++ [.closeArray] ++ [.closeObject]) =
      some (.node [] (done.reverse ++ [member "fields" (.node [] (elements s.fields))])) := by
    rw [builds_fields]
    simp [Tree.build, Tree.close, member]
  by_cases hempty : s.nameSpace.isEmpty = true
  · have h := hfields [member "name" (.leaf s.name), member "type" (.leaf "record")]
    rw [tree, nameSpaceMembers, if_pos hempty, tokens, nameSpaceTokens, if_pos hempty]
    exact h
  · have h := hfields [member "namespace" (.leaf s.nameSpace), member "name" (.leaf s.name),
      member "type" (.leaf "record")]
    rw [tree, nameSpaceMembers, if_neg hempty, tokens, nameSpaceTokens, if_neg hempty]
    exact h

theorem typeNamed_name (type : FieldType) : typeNamed type.name = .ok type := by
  cases type <;> rfl

theorem field_tree (schema : Bytes) {f : Field} (h : f.name ≠ []) :
    field schema (fieldTree f) = .ok f := by
  have hname : (fieldTree f).childText? "name" = some f.name := rfl
  have htype : (fieldTree f).child? "type" = some (.leaf f.type.name) := rfl
  have hfound : fieldType f.name (.leaf f.type.name) = .ok f.type := typeNamed_name f.type
  rw [field, hname]
  split
  · next hnone => cases hnone
  · next hnone =>
    exact absurd (Option.some.inj hnone) h
  · next name hsome =>
    cases hsome
    simp only [htype, hfound]
    rfl

theorem mapM_field (schema : Bytes) {fields : List Field} (h : ∀ f ∈ fields, f.name ≠ []) :
    (elements fields).mapM (fun c => field schema c.2) = .ok fields := by
  have hfields := Runs.mapM_of_ok (f := fun f => field schema (fieldTree f)) (g := id)
    fun f hf => field_tree schema (h f hf)
  rw [elements, List.mapM_map]
  rwa [List.map_id] at hfields

theorem ofTree_tree {s : Schema} (hname : s.name ≠ []) (hfields : ∀ f ∈ s.fields, f.name ≠ []) :
    ofTree s.tree = .ok s := by
  have htype : s.tree.childText? "type" = some "record" := rfl
  have hnamed : s.tree.childText? "name" = some s.name := rfl
  have hlist : s.tree.child? "fields" = some (.node [] (elements s.fields)) := by
    rw [tree, nameSpaceMembers]
    split <;> rfl
  have hspace : (s.tree.childText? "namespace").getD [] = s.nameSpace := by
    rw [tree, nameSpaceMembers]
    split
    · next hempty => exact (List.isEmpty_iff.1 hempty).symm
    · rfl
  rw [ofTree, if_neg (by simp [htype]), hnamed]
  split
  · next hnone => cases hnone
  · next hnone =>
    exact absurd (Option.some.inj hnone) hname
  · next name hsome =>
    cases hsome
    simp only [hlist, hspace, Tree.children, mapM_field _ hfields]
    rfl

/-- A schema comes back from its JSON form. -/
theorem ofJson_toJson {s : Schema} (hname : s.name ≠ []) (hfields : ∀ f ∈ s.fields, f.name ≠ []) :
    ofJson s.toJson = .ok s := by
  have htokens : tokens? s.toJson = some s.tokens := by
    have h := lexes_toJson s []
    rw [List.append_nil, tokens?, Option.map_some, List.append_nil] at h
    exact h
  rw [ofJson, Tree.ofText?, htokens, Option.bind_some, ofTokens?_tokens]
  exact ofTree_tree hname hfields

end Schema
end BlockContainer
