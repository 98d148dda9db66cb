import BlockContainer.Schema.Json

/-! # JSON texts in UTF-8

A reader of JSON can count on its texts being UTF-8. The reader here does not look: it takes
strings byte by byte, and leaves the bytes of a character beyond ASCII as they are. What it
returns is UTF-8 again, because it cuts a text only beside ASCII characters and because its
escapes stand for code points that are no surrogates.
-/
namespace BlockContainer

namespace Bytes

/-- The bytes of a sequence of characters in UTF-8. -/
inductive IsUtf8 : Bytes → Prop
  | nil : IsUtf8 []
  | cons (c : Char) {rest : Bytes} (h : IsUtf8 rest) : IsUtf8 (String.utf8EncodeChar c ++ rest)

theorem forall_byte {P : UInt8 → Prop} (h : ∀ n < 256, P (UInt8.ofNat n)) (c : UInt8) : P c :=
  UInt8.ofNat_toNat (x := c) ▸ h c.toNat c.toNat_lt

def Ascii (b : Bytes) : Prop := ∀ c ∈ b, c < 0x80

instance (b : Bytes) : Decidable b.Ascii := List.decidableBAll (· < 0x80) b

variable {a b rest : Bytes} {c : UInt8}

theorem Ascii.nil : Ascii [] := fun _ hc => absurd hc List.not_mem_nil

theorem Ascii.cons (hc : c < 0x80) (h : rest.Ascii) : Ascii (c :: rest) :=
  List.forall_mem_cons.2 ⟨hc, h⟩

theorem Ascii.append (ha : a.Ascii) (hb : b.Ascii) : (a ++ b).Ascii := by
  intro c hc
  rcases List.mem_append.1 hc with hc | hc
  · exact ha c hc
  · exact hb c hc

theorem toNat_ofNat_char {n : Nat} (h : n.isValidChar) : (Char.ofNat n).val.toNat = n := by
  rw [Char.ofNat, dif_pos h]
  rfl

/-- The character of an ASCII byte is that byte. -/
theorem encode_ascii (h : c < 0x80) : String.utf8EncodeChar (Char.ofNat c.toNat) = [c] := by
  have hlt : c.toNat < 128 := UInt8.lt_iff_toNat_lt.1 h
  have hcode : (Char.ofNat c.toNat).val.toNat = c.toNat :=
    toNat_ofNat_char (Or.inl (by omega))
  rw [String.utf8EncodeChar, hcode, if_pos (by omega), UInt8.ofNat_toNat]

/-- No byte of a character is ASCII unless it is all of it. -/
theorem encode_cases (d : Char) (h : c ∈ String.utf8EncodeChar d) :
    0x80 ≤ c ∨ String.utf8EncodeChar d = [c] := by
  have hhigh {n : Nat} (hlow : 128 ≤ n) (hbyte : n < 256) : 0x80 ≤ UInt8.ofNat n := by
    rw [UInt8.le_iff_toNat_le, UInt8.toNat_ofNat_of_lt' hbyte]
    exact hlow
  rw [String.utf8EncodeChar] at h ⊢
  split at h
  · next hone =>
    rw [if_pos hone, List.mem_singleton.1 h]
    exact .inr rfl
  · left
    split at h
    · simp only [List.mem_cons, List.not_mem_nil, or_false] at h
      rcases h with rfl | rfl <;> exact hhigh (by omega) (by omega)
    · split at h <;> simp only [List.mem_cons, List.not_mem_nil, or_false] at h
      · rcases h with rfl | rfl | rfl <;> exact hhigh (by omega) (by omega)
      · rcases h with rfl | rfl | rfl | rfl <;> exact hhigh (by omega) (by omega)

namespace IsUtf8

theorem append (ha : a.IsUtf8) (hb : b.IsUtf8) : (a ++ b).IsUtf8 := by
  induction ha with
  | nil => exact hb
  | cons d _ ih =>
    rw [List.append_assoc]
    exact .cons d ih

theorem ascii_cons (hc : c < 0x80) (h : rest.IsUtf8) : IsUtf8 (c :: rest) := by
  have hcons := IsUtf8.cons (Char.ofNat c.toNat) h
  rwa [encode_ascii hc] at hcons

theorem of_ascii (h : b.Ascii) : b.IsUtf8 := by
  induction b with
  | nil => exact .nil
  | cons c rest ih =>
    exact ascii_cons (h c List.mem_cons_self) (ih fun d hd => h d (List.mem_cons_of_mem c hd))

/-- A text may be cut at an ASCII byte. -/
theorem split (hc : c < 0x80) (h : IsUtf8 (a ++ c :: rest)) : a.IsUtf8 ∧ rest.IsUtf8 := by
  generalize hb : a ++ c :: rest = b at h
  induction h generalizing a with
  | nil => simp at hb
  | cons d h ih =>
    rcases List.append_eq_append_iff.1 hb with ⟨middle, hd, hrest⟩ | ⟨middle, rfl, hrest⟩
    · cases middle with
      | nil =>
        rw [List.append_nil] at hd
        obtain ⟨-, hrest⟩ := ih (a := []) hrest
        exact ⟨hd ▸ List.append_nil (String.utf8EncodeChar d) ▸ .cons d .nil, hrest⟩
      | cons c' middle =>
        obtain ⟨rfl, rfl⟩ := List.cons.inj hrest
        -- The ASCII byte is in the first character, so it is all of it.
        have hone : String.utf8EncodeChar d = [c] := by
          rcases encode_cases d (hd ▸ List.mem_append_right a List.mem_cons_self) with hhigh | hone
          · exact absurd hc (UInt8.not_lt.2 hhigh)
          · exact hone
        rw [hone] at hd
        cases a with
        | nil =>
          cases hd
          exact ⟨.nil, h⟩
        | cons _ a => simp at hd
    · obtain ⟨hmiddle, hrest⟩ := ih hrest.symm
      exact ⟨.cons d hmiddle, hrest⟩

theorem tail (hc : c < 0x80) (h : IsUtf8 (c :: rest)) : rest.IsUtf8 :=
  (split (a := []) hc h).2

theorem of_ascii_append (ha : a.Ascii) (h : (a ++ rest).IsUtf8) : rest.IsUtf8 := by
  induction a with
  | nil => exact h
  | cons c a ih =>
    exact ih (fun d hd => ha d (List.mem_cons_of_mem c hd)) (tail (ha c List.mem_cons_self) h)

end IsUtf8

end Bytes

namespace Json
open Bytes

section Lexemes

variable {input text rest : Bytes} {n : Nat}

theorem hexValue?_bounds {c : UInt8} (h : hexValue? c = some n) : c < 0x80 ∧ n < 16 := by
  have hnat : c < 0x80 ↔ c.toNat < 128 := UInt8.lt_iff_toNat_lt
  rw [hnat]
  simp only [hexValue?, isDigit, Bool.and_eq_true, decide_eq_true_eq, UInt8.le_iff_toNat_le,
    UInt8.reduceToNat] at h
  split at h
  · cases h
    omega
  · split at h
    · cases h
      omega
    · split at h
      · cases h
        omega
      · cases h

theorem codeUnit?_utf8 (h : codeUnit? input = some (n, rest)) (hutf8 : IsUtf8 input) :
    n < 0x10000 ∧ IsUtf8 rest := by
  rw [codeUnit?.eq_def] at h
  split at h
  · simp only [Option.bind_eq_bind, Option.bind_eq_some_iff, Option.some.injEq, Prod.mk.injEq] at h
    obtain ⟨a, ha, b, hb, c, hc, d, hd, rfl, rfl⟩ := h
    obtain ⟨ha, hna⟩ := hexValue?_bounds ha
    obtain ⟨hb, hnb⟩ := hexValue?_bounds hb
    obtain ⟨hc, hnc⟩ := hexValue?_bounds hc
    obtain ⟨hd, hnd⟩ := hexValue?_bounds hd
    exact ⟨by omega, (((hutf8.tail ha).tail hb).tail hc).tail hd⟩
  · cases h

theorem escapedUnit?_utf8 (h : escapedUnit? input = some (n, rest)) (hutf8 : IsUtf8 input) :
    IsUtf8 rest := by
  rw [escapedUnit?.eq_def] at h
  split at h
  · split at h
    · next hmark =>
      obtain ⟨rfl, rfl⟩ := hmark
      exact (codeUnit?_utf8 h ((hutf8.tail (by decide)).tail (by decide))).2
    · cases h
  · cases h

/-- Escapes stand for code points that have an encoding. -/
theorem codePoint?_utf8 (h : codePoint? input = some (n, rest)) (hutf8 : IsUtf8 input) :
    n.isValidChar ∧ IsUtf8 rest := by
  simp only [codePoint?, Option.bind_eq_bind, Option.bind_eq_some_iff, Prod.exists] at h
  obtain ⟨unit, behind, hunit, h⟩ := h
  obtain ⟨hbound, hbehind⟩ := codeUnit?_utf8 hunit hutf8
  split at h
  · next hhigh =>
    simp only [Option.bind_eq_some_iff, Prod.exists] at h
    obtain ⟨low, behind', hescaped, h⟩ := h
    have hbehind' := escapedUnit?_utf8 hescaped hbehind
    split at h
    · next hlow =>
      simp only [isHighSurrogate, isLowSurrogate, Bool.and_eq_true, decide_eq_true_eq] at hhigh hlow
      simp only [Option.some.injEq, Prod.mk.injEq] at h
      obtain ⟨rfl, rfl⟩ := h
      exact ⟨.inr (by omega), hbehind'⟩
    · cases h
  · next hhigh =>
    split at h
    · cases h
    · next hlow =>
      simp only [isHighSurrogate, isLowSurrogate, Bool.and_eq_true, decide_eq_true_eq] at hhigh hlow
      cases h
      refine ⟨?_, hbehind⟩
      rw [Nat.isValidChar]
      omega

theorem utf8_encode (h : n.isValidChar) : utf8 n = String.utf8EncodeChar (Char.ofNat n) := by
  have hbound : n < 0x110000 := by
    rcases h with h | ⟨-, h⟩ <;> omega
  simp only [utf8, String.utf8EncodeChar, toNat_ofNat_char h, Nat.add_comm 0x80]
  split
  · rw [if_pos (show n ≤ 127 by omega)]
  · rw [if_neg (show ¬n ≤ 127 by omega)]
    split
    · have hlead : 0xc0 + n / 0x40 = n / 64 % 32 + 192 := by omega
      rw [if_pos (show n ≤ 2047 by omega), hlead]
    · rw [if_neg (show ¬n ≤ 2047 by omega)]
      split
      · have hlead : 0xe0 + n / 0x1000 = n / 4096 % 16 + 224 := by omega
        rw [if_pos (show n ≤ 65535 by omega), hlead]
      · have hlead : 0xf0 + n / 0x40000 = n / 262144 % 8 + 240 := by omega
        rw [if_neg (show ¬n ≤ 65535 by omega), hlead]

theorem letterEscape?_ascii {c d : UInt8} (h : letterEscape? c = some d) : c < 0x80 ∧ d < 0x80 := by
  have hall := forall_byte (P := fun c => (letterEscape? c).all fun d => c < 0x80 ∧ d < 0x80)
    (by decide +kernel) c
  simpa [h] using hall

theorem escape?_utf8 (h : escape? input = some (text, rest)) (hutf8 : IsUtf8 input) :
    IsUtf8 text ∧ IsUtf8 rest := by
  rw [escape?.eq_def] at h
  split at h
  · cases h
  · split at h
    · next hmark =>
      simp only [Option.map_eq_some_iff, Prod.exists, Prod.mk.injEq] at h
      obtain ⟨code, behind, hpoint, rfl, rfl⟩ := h
      obtain ⟨hvalid, hrest⟩ := codePoint?_utf8 hpoint (hutf8.tail (hmark ▸ by decide))
      rw [utf8_encode hvalid, ← List.append_nil (String.utf8EncodeChar _)]
      exact ⟨.cons _ .nil, hrest⟩
    · simp only [Option.map_eq_some_iff, Prod.mk.injEq] at h
      obtain ⟨letter, hletter, rfl, rfl⟩ := h
      obtain ⟨hmark, hascii⟩ := letterEscape?_ascii hletter
      exact ⟨.ascii_cons hascii .nil, hutf8.tail hmark⟩

/-- A string is cut only where an ASCII byte stands. -/
theorem stringBody?_utf8 (begun : Bytes) (h : stringBody? input = some (text, rest))
    (hutf8 : IsUtf8 (begun ++ input)) :
    IsUtf8 (begun ++ text) ∧ IsUtf8 rest := by
  -- The bytes of a character are passed one by one, so `begun` may end within one.
  fun_induction stringBody? input generalizing begun text rest with
  | case1 => cases h
  | case2 behind =>
    cases h
    rw [List.append_nil]
    exact hutf8.split (by decide)
  | case3 => cases h
  | case4 behind escaped behind' hescape _ ih =>
    simp only [Option.map_eq_some_iff, Prod.exists, Prod.mk.injEq] at h
    obtain ⟨more, tail, hmore, rfl, rfl⟩ := h
    obtain ⟨hbegun, hbehind⟩ := hutf8.split (by decide)
    obtain ⟨hescaped, hbehind'⟩ := escape?_utf8 hescape hbehind
    obtain ⟨hmore, hrest⟩ := ih [] hmore hbehind'
    exact ⟨hbegun.append (hescaped.append hmore), hrest⟩
  | case5 => cases h
  | case6 c behind _ _ _ ih =>
    simp only [Option.map_eq_some_iff, Prod.exists, Prod.mk.injEq] at h
    obtain ⟨more, tail, hmore, rfl, rfl⟩ := h
    rw [List.append_cons] at hutf8 ⊢
    exact ih _ hmore hutf8

theorem ascii_take_add {m : Nat} (hm : Ascii (input.take m)) (hn : Ascii ((input.drop m).take n)) :
    Ascii (input.take (m + n)) := by
  rw [List.take_add]
  exact hm.append hn

theorem digits?_ascii (h : digits? input = some n) : 0 < n ∧ Ascii (input.take n) := by
  simp only [digits?] at h
  split at h
  · cases h
  · next hsome =>
    cases h
    refine ⟨Nat.pos_of_ne_zero hsome, ?_⟩
    rw [← List.prefix_iff_eq_take.1 (List.takeWhile_prefix isDigit)]
    intro c hc
    have hdigit : isDigit c = true := List.all_eq_true.1 List.all_takeWhile c hc
    simp only [isDigit, Bool.and_eq_true, decide_eq_true_eq] at hdigit
    exact UInt8.lt_of_le_of_lt hdigit.2 (by decide)

theorem signLength_ascii {allowed : List UInt8} (h : Ascii allowed) (input : Bytes) :
    Ascii (input.take (signLength allowed input)) := by
  cases input with
  | nil => exact .nil
  | cons c rest =>
    rw [signLength]
    split
    · next hmem => exact .cons (h c hmem) .nil
    · exact .nil

theorem fractionLength?_ascii (h : fractionLength? input = some n) : Ascii (input.take n) := by
  rw [fractionLength?.eq_def] at h
  split at h
  · obtain ⟨count, hcount, rfl⟩ := Option.map_eq_some_iff.1 h
    exact .cons (by decide) (digits?_ascii hcount).2
  · cases h
    exact .nil

theorem exponentLength?_ascii (h : exponentLength? input = some n) : Ascii (input.take n) := by
  rw [exponentLength?.eq_def] at h
  split at h
  · next c rest =>
    split at h
    · next hmark =>
      obtain ⟨count, hcount, rfl⟩ := Option.map_eq_some_iff.1 h
      rw [Nat.add_comm count]
      exact .cons (by rcases hmark with rfl | rfl <;> decide)
        (ascii_take_add (signLength_ascii (by decide) rest) (digits?_ascii hcount).2)
    · cases h
      exact .nil
  · cases h
    exact .nil

theorem numberLength?_ascii (h : numberLength? input = some n) :
    0 < n ∧ Ascii (input.take n) := by
  simp only [numberLength?, Option.bind_eq_bind, Option.bind_eq_some_iff, Option.some.injEq] at h
  obtain ⟨count, hcount, fraction, hfraction, exponent, hexponent, rfl⟩ := h
  obtain ⟨hpos, hdigits⟩ := digits?_ascii hcount
  have hsign := signLength_ascii (show Ascii [0x2d] by decide) input
  generalize signLength [0x2d] input = sign at *
  -- A leading zero stands alone, and is one of the digits.
  generalize hwhole : (if (input.drop sign).head? = some 0x30 then 1 else count) = whole at *
  have hle : 0 < whole ∧ whole ≤ count := by
    rw [← hwhole]
    split <;> omega
  have hwhole : Ascii ((input.drop sign).take whole) := fun c hc =>
    hdigits c (List.take_subset_take_left _ hle.2 hc)
  have hfraction := fractionLength?_ascii hfraction
  have hexponent := exponentLength?_ascii hexponent
  exact ⟨by omega, ascii_take_add (ascii_take_add (ascii_take_add hsign hwhole) hfraction) hexponent⟩

/-- Names and numbers are ASCII, and stand as they are at the front. -/
theorem scalar?_ascii {c : UInt8} (h : scalar? (c :: rest) = some text) :
    Ascii text ∧ ∃ more behind, text = c :: more ∧ rest = more ++ behind := by
  obtain ⟨hascii, hne, hprefix⟩ : Ascii text ∧ text ≠ [] ∧ text <+: c :: rest := by
    rw [scalar?] at h
    split at h
    · next word hword =>
      cases h
      have hwords : ∀ w ∈ (["true", "false", "null"] : List Bytes), Ascii w ∧ w ≠ [] := by decide
      obtain ⟨hascii, hne⟩ := hwords text (List.mem_of_find?_eq_some hword)
      have hprefix : text.isPrefixOf (c :: rest) = true := by
        rw [word?] at hword
        exact List.find?_some (p := fun w : Bytes => w.isPrefixOf (c :: rest)) hword
      exact ⟨hascii, hne, List.isPrefixOf_iff_prefix.1 hprefix⟩
    · obtain ⟨count, hcount, rfl⟩ := Option.map_eq_some_iff.1 h
      obtain ⟨hpos, hascii⟩ := numberLength?_ascii hcount
      refine ⟨hascii, ?_, List.take_prefix count (c :: rest)⟩
      rw [Ne, List.take_eq_nil_iff, not_or]
      exact ⟨Nat.ne_of_gt hpos, List.cons_ne_nil c rest⟩
  obtain ⟨behind, hbehind⟩ := hprefix
  cases text with
  | nil => exact absurd rfl hne
  | cons d more =>
    obtain ⟨rfl, hrest⟩ := List.cons.inj hbehind
    exact ⟨hascii, more, behind, rfl, hrest.symm⟩

def Token.Holds (P : Bytes → Prop) : Token → Prop
  | scalar text | string text => P text
  | _ => True

theorem isBlank_ascii {c : UInt8} (h : isBlank c = true) : c < 0x80 := by
  simp only [isBlank, Bool.or_eq_true, beq_iff_eq] at h
  rcases h with ((rfl | rfl) | rfl) | rfl <;> decide

theorem punctuation?_ascii {c : UInt8} {token : Token} (h : punctuation? c = some token) :
    c < 0x80 ∧ token.Holds IsUtf8 := by
  unfold punctuation? at h
  repeat' split at h
  all_goals cases h
  all_goals exact ⟨‹c = _› ▸ by decide, trivial⟩

/-- The lexemes of a text in UTF-8 hold texts in UTF-8. -/
theorem tokens?_utf8 {ts : List Token} (h : tokens? input = some ts) (hutf8 : IsUtf8 input) :
    ∀ token ∈ ts, token.Holds IsUtf8 := by
  fun_induction tokens? input generalizing ts with
  | case1 =>
    cases h
    exact fun _ hmem => absurd hmem List.not_mem_nil
  | case2 c rest hblank ih => exact ih h (hutf8.tail (isBlank_ascii hblank))
  | case3 c rest _ token htoken ih =>
    obtain ⟨more, hmore, rfl⟩ := Option.map_eq_some_iff.1 h
    obtain ⟨hc, hholds⟩ := punctuation?_ascii htoken
    exact List.forall_mem_cons.2 ⟨hholds, ih hmore (hutf8.tail hc)⟩
  | case4 => cases h
  | case5 rest text behind hbody _ _ ih =>
    obtain ⟨more, hmore, rfl⟩ := Option.map_eq_some_iff.1 h
    obtain ⟨htext, hbehind⟩ := stringBody?_utf8 [] hbody (hutf8.tail (by decide))
    exact List.forall_mem_cons.2 ⟨htext, ih hmore hbehind⟩
  | case6 => cases h
  | case7 c rest _ _ _ text hscalar ih =>
    obtain ⟨more, hmore, rfl⟩ := Option.map_eq_some_iff.1 h
    obtain ⟨hascii, spelled, behind, rfl, rfl⟩ := scalar?_ascii hscalar
    refine List.forall_mem_cons.2 ⟨.of_ascii hascii, ih hmore ?_⟩
    rw [List.length_cons, Nat.add_sub_cancel, List.drop_left]
    exact .of_ascii_append hascii hutf8

end Lexemes

namespace Tree

variable {P : Bytes → Prop}

/-- The texts of all nodes are of this kind, also those within arrays and objects. -/
inductive Holds (P : Bytes → Prop) : Tree → Prop
  | node {text : Bytes} {children : List (Bytes × Tree)} (htext : P text)
      (hchildren : ∀ c ∈ children, c.2.Holds P) : Holds P (.node text children)

theorem Holds.text {t : Tree} (h : t.Holds P) : P t.text := by
  cases h with
  | node htext _ => exact htext

theorem Holds.children {t : Tree} (h : t.Holds P) : ∀ c ∈ t.children, c.2.Holds P := by
  cases h with
  | node _ hchildren => exact hchildren

theorem Holds.leaf {text : Bytes} (h : P text) : (leaf text).Holds P :=
  .node h fun _ hc => absurd hc List.not_mem_nil

theorem Holds.close {done : List (Bytes × Tree)} (hempty : P []) (h : ∀ c ∈ done, c.2.Holds P) :
    (close done).Holds P :=
  .node hempty fun c hc => h c (List.mem_reverse.1 hc)

theorem holds_cons (key : Bytes) {t : Tree} {done : List (Bytes × Tree)} (ht : t.Holds P)
    (hdone : ∀ c ∈ done, c.2.Holds P) : ∀ c ∈ (key, t) :: done, c.2.Holds P :=
  List.forall_mem_cons.2 ⟨ht, hdone⟩

def Frame.Holds (P : Bytes → Prop) : Frame → Prop
  | array done | object done _ => ∀ c ∈ done, c.2.Holds P

def Expects.Holds (P : Bytes → Prop) : Expects → Prop
  | keyOrClose done | key done => ∀ c ∈ done, c.2.Holds P
  | separator t => t.Holds P
  | _ => True

/-- The texts of a tree are those of its lexemes. -/
theorem build_holds {expects : Expects} {stack : List Frame} {ts : List Token} {t : Tree}
    (hempty : P []) (h : build expects stack ts = some t) (hexpects : expects.Holds P)
    (hstack : ∀ frame ∈ stack, frame.Holds P) (hts : ∀ token ∈ ts, token.Holds P) : t.Holds P := by
  have tail {α : Type} {Q : α → Prop} {x : α} {rest : List α} (h : ∀ y ∈ x :: rest, Q y) :
      ∀ y ∈ rest, Q y := (List.forall_mem_cons.1 h).2
  -- What is finished waits on the stack or in what is expected, and all of it holds.
  fun_induction build expects stack ts with
  | case1 =>
    cases h
    exact hexpects
  | case2 => cases h
  | case3 _ text rest ih | case4 _ text rest ih | case8 _ text rest ih | case9 _ text rest ih =>
    have htext : P text := hts _ List.mem_cons_self
    exact ih h (.leaf htext) hstack (tail hts)
  | case5 _ _ ih | case10 _ _ ih =>
    have hframe : (Frame.array []).Holds P := fun _ hc => absurd hc List.not_mem_nil
    exact ih h trivial (List.forall_mem_cons.2 ⟨hframe, hstack⟩) (tail hts)
  | case6 _ _ ih | case11 _ _ ih =>
    exact ih h (fun _ hc => absurd hc List.not_mem_nil) hstack (tail hts)
  | case7 _ _ _ ih =>
    have hdone := hstack _ List.mem_cons_self
    exact ih h (.close hempty hdone) (tail hstack) (tail hts)
  | case12 _ _ _ ih => exact ih h (.close hempty hexpects) hstack (tail hts)
  | case13 _ _ _ _ ih | case14 _ _ _ _ ih =>
    exact ih h trivial (List.forall_mem_cons.2 ⟨hexpects, hstack⟩) (tail hts)
  | case15 _ _ ih => exact ih h trivial hstack (tail hts)
  | case16 t done stack rest ih =>
    have hdone := holds_cons [] hexpects (hstack _ List.mem_cons_self)
    exact ih h trivial (List.forall_mem_cons.2 ⟨hdone, tail hstack⟩) (tail hts)
  | case17 t done stack rest ih =>
    have hdone := holds_cons [] hexpects (hstack _ List.mem_cons_self)
    exact ih h (.close hempty hdone) (tail hstack) (tail hts)
  | case18 t done key stack rest ih =>
    have hdone := holds_cons key hexpects (hstack _ List.mem_cons_self)
    exact ih h hdone (tail hstack) (tail hts)
  | case19 t done key stack rest ih =>
    have hdone := holds_cons key hexpects (hstack _ List.mem_cons_self)
    exact ih h (.close hempty hdone) (tail hstack) (tail hts)
  | case20 => cases h

theorem ofText?_utf8 {input : Bytes} {t : Tree} (h : ofText? input = some t) (hutf8 : IsUtf8 input) :
    t.Holds IsUtf8 := by
  obtain ⟨ts, hts, ht⟩ := Option.bind_eq_some_iff.1 h
  exact build_holds .nil ht trivial (fun _ hmem => absurd hmem List.not_mem_nil)
    (tokens?_utf8 hts hutf8)

end Tree

end Json

end BlockContainer
