import BlockContainer.Bytes

/-! # JSON lexemes

`tokens` cuts a text into its lexemes. Strings are decoded here, escapes of code points
into UTF-8 and surrogates only in pairs; numbers keep the spelling they were written in.
-/
namespace BlockContainer.Json

inductive Token where
  | openObject | closeObject | openArray | closeArray | comma | colon
  | scalar (text : Bytes)
  | string (text : Bytes)
deriving DecidableEq, Repr

def quote : UInt8 := 0x22
def backslash : UInt8 := 0x5c

def isBlank (c : UInt8) : Bool := c == 0x20 || c == 0x09 || c == 0x0a || c == 0x0d
def isDigit (c : UInt8) : Bool := 0x30 ≤ c && c ≤ 0x39

def hexValue? (c : UInt8) : Option Nat :=
  if isDigit c then some (c.toNat - 0x30)
  else if 0x61 ≤ c && c ≤ 0x66 then some (c.toNat - 0x57)
  else if 0x41 ≤ c && c ≤ 0x46 then some (c.toNat - 0x37)
  else none

def codeUnit? : Bytes → Option (Nat × Bytes)
  | a :: b :: c :: d :: rest => do
    let a ← hexValue? a
    let b ← hexValue? b
    let c ← hexValue? c
    let d ← hexValue? d
    some (((a * 16 + b) * 16 + c) * 16 + d, rest)
  | _ => none

def utf8 (code : Nat) : Bytes :=
  if code < 0x80 then [UInt8.ofNat code]
  else if code < 0x800 then
    [UInt8.ofNat (0xc0 + code / 0x40), UInt8.ofNat (0x80 + code % 0x40)]
  else if code < 0x10000 then
    [UInt8.ofNat (0xe0 + code / 0x1000), UInt8.ofNat (0x80 + code / 0x40 % 0x40),
      UInt8.ofNat (0x80 + code % 0x40)]
  else
    [UInt8.ofNat (0xf0 + code / 0x40000), UInt8.ofNat (0x80 + code / 0x1000 % 0x40),
      UInt8.ofNat (0x80 + code / 0x40 % 0x40), UInt8.ofNat (0x80 + code % 0x40)]

def escapedUnit? : Bytes → Option (Nat × Bytes)
  | b :: u :: rest => if b = backslash ∧ u = 0x75 then codeUnit? rest else none
  | _ => none

def isHighSurrogate (unit : Nat) : Bool := 0xd800 ≤ unit && unit < 0xdc00
def isLowSurrogate (unit : Nat) : Bool := 0xdc00 ≤ unit && unit < 0xe000

/-- The code point of one escaped unit, or of a high surrogate and the low one behind it. -/
def codePoint? (input : Bytes) : Option (Nat × Bytes) := do
  let (unit, rest) ← codeUnit? input
  if isHighSurrogate unit then
    let (low, rest) ← escapedUnit? rest
    if isLowSurrogate low then
      some (0x10000 + (unit - 0xd800) * 0x400 + (low - 0xdc00), rest)
    else none
  else if isLowSurrogate unit then none
  else some (unit, rest)

def letterEscape? (c : UInt8) : Option UInt8 :=
  if c = quote ∨ c = backslash ∨ c = 0x2f then some c
  else if c = 0x62 then some 0x08
  else if c = 0x66 then some 0x0c
  else if c = 0x6e then some 0x0a
  else if c = 0x72 then some 0x0d
  else if c = 0x74 then some 0x09
  else none

def escape? : Bytes → Option (Bytes × Bytes)
  | [] => none
  | c :: rest =>
    if c = 0x75 then (codePoint? rest).map fun (code, rest) => (utf8 code, rest)
    else (letterEscape? c).map fun b => ([b], rest)

theorem codeUnit?_length {input rest : Bytes} {n : Nat} (h : codeUnit? input = some (n, rest)) :
    rest.length < input.length := by
  unfold codeUnit? at h
  split at h
  · simp only [Option.bind_eq_bind, Option.bind_eq_some_iff] at h
    obtain ⟨_, _, _, _, _, _, _, _, h⟩ := h
    simp only [Option.some.injEq, Prod.mk.injEq] at h
    obtain ⟨_, rfl⟩ := h
    simp only [List.length_cons]
    omega
  · exact absurd h (by simp)

theorem escapedUnit?_length {input rest : Bytes} {n : Nat}
    (h : escapedUnit? input = some (n, rest)) : rest.length < input.length := by
  unfold escapedUnit? at h
  split at h
  · split at h
    · have := codeUnit?_length h
      simp only [List.length_cons]
      omega
    · exact absurd h (by simp)
  · exact absurd h (by simp)

theorem codePoint?_length {input rest : Bytes} {n : Nat}
    (h : codePoint? input = some (n, rest)) : rest.length < input.length := by
  unfold codePoint? at h
  simp only [Option.bind_eq_bind, Option.bind_eq_some_iff, Prod.exists] at h
  obtain ⟨unit, middle, hunit, h⟩ := h
  have hm := codeUnit?_length hunit
  split at h
  · simp only [Option.bind_eq_some_iff, Prod.exists] at h
    obtain ⟨low, tail, hlow, h⟩ := h
    have ht := escapedUnit?_length hlow
    split at h
    · simp only [Option.some.injEq, Prod.mk.injEq] at h
      obtain ⟨_, rfl⟩ := h
      omega
    · exact absurd h (by simp)
  · split at h
    · exact absurd h (by simp)
    · simp only [Option.some.injEq, Prod.mk.injEq] at h
      obtain ⟨_, rfl⟩ := h
      exact hm

theorem escape?_length {input text rest : Bytes} (h : escape? input = some (text, rest)) :
    rest.length < input.length := by
  unfold escape? at h
  split at h
  · exact absurd h (by simp)
  · split at h
    · simp only [Option.map_eq_some_iff, Prod.exists, Prod.mk.injEq] at h
      obtain ⟨code, rest', hc, _, rfl⟩ := h
      have := codePoint?_length hc
      simp only [List.length_cons]
      omega
    · simp only [Option.map_eq_some_iff, Prod.mk.injEq] at h
      obtain ⟨_, _, _, rfl⟩ := h
      simp

def stringBody? : Bytes → Option (Bytes × Bytes)
  | [] => none
  | c :: rest =>
    if c = quote then some ([], rest)
    else if c = backslash then
      match _ : escape? rest with
      | none => none
      | some (text, rest') => (stringBody? rest').map fun (more, tail) => (text ++ more, tail)
    else if c < 0x20 then none
    else (stringBody? rest).map fun (more, tail) => (c :: more, tail)
termination_by input => input.length
decreasing_by
  · have := escape?_length ‹_›
    simp only [List.length_cons]
    omega
  · simp

theorem stringBody?_length {input text rest : Bytes}
    (h : stringBody? input = some (text, rest)) : rest.length < input.length := by
  fun_induction stringBody? input generalizing text rest with
  | case1 => simp at h
  | case2 =>
    simp only [Option.some.injEq, Prod.mk.injEq] at h
    obtain ⟨_, rfl⟩ := h
    simp
  | case3 => simp at h
  | case4 _ _ _ _ _ ih =>
    simp only [Option.map_eq_some_iff, Prod.exists, Prod.mk.injEq] at h
    obtain ⟨_, _, hs, _, rfl⟩ := h
    have := ih hs
    have := escape?_length ‹escape? _ = _›
    simp only [List.length_cons]
    omega
  | case5 => simp at h
  | case6 c tail _ _ _ ih =>
    simp only [Option.map_eq_some_iff, Prod.exists, Prod.mk.injEq] at h
    obtain ⟨_, _, hs, _, rfl⟩ := h
    have := ih hs
    simp only [List.length_cons]
    omega

def digits? (input : Bytes) : Option Nat :=
  let n := (input.takeWhile isDigit).length
  if n = 0 then none else some n

def signLength (allowed : List UInt8) : Bytes → Nat
  | c :: _ => if c ∈ allowed then 1 else 0
  | [] => 0

def fractionLength? : Bytes → Option Nat
  | 0x2e :: rest => (digits? rest).map (· + 1)
  | _ => some 0

def exponentLength? : Bytes → Option Nat
  | c :: rest =>
    if c = 0x65 ∨ c = 0x45 then
      let sign := signLength [0x2b, 0x2d] rest
      (digits? (rest.drop sign)).map (· + sign + 1)
    else some 0
  | [] => some 0

/-- The length of the number at the front. A leading zero stands alone. -/
def numberLength? (input : Bytes) : Option Nat := do
  let sign := signLength [0x2d] input
  let whole ← digits? (input.drop sign)
  let whole := if (input.drop sign).head? = some 0x30 then 1 else whole
  let fraction ← fractionLength? (input.drop (sign + whole))
  let exponent ← exponentLength? (input.drop (sign + whole + fraction))
  some (sign + whole + fraction + exponent)

def word? (input : Bytes) : Option Bytes :=
  (["true", "false", "null"] : List Bytes).find? fun w => w.isPrefixOf input

def scalar? (input : Bytes) : Option Bytes :=
  match word? input with
  | some w => some w
  | none => (numberLength? input).map input.take

def punctuation? (c : UInt8) : Option Token :=
  if c = 0x7b then some .openObject
  else if c = 0x7d then some .closeObject
  else if c = 0x5b then some .openArray
  else if c = 0x5d then some .closeArray
  else if c = 0x2c then some .comma
  else if c = 0x3a then some .colon
  else none

/-- All lexemes of a text, or nothing if some part of it is none. -/
def tokens? : Bytes → Option (List Token)
  | [] => some []
  | c :: rest =>
    if isBlank c then tokens? rest
    else match punctuation? c with
      | some t => (tokens? rest).map (t :: ·)
      | none =>
        if c = quote then
          match _ : stringBody? rest with
          | none => none
          | some (text, rest') => (tokens? rest').map (.string text :: ·)
        else
          match scalar? (c :: rest) with
          | none => none
          | some text => (tokens? (rest.drop (text.length - 1))).map (.scalar text :: ·)
termination_by input => input.length
decreasing_by
  · simp
  · simp
  · have := stringBody?_length ‹_›
    simp only [List.length_cons]
    omega
  · simp only [List.length_drop, List.length_cons]
    omega

end BlockContainer.Json
