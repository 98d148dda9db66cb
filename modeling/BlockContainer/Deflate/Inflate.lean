import BlockContainer.Deflate.PrefixCode
import BlockContainer.Deflate.Token

/-! # Inflating

The input is a sequence of blocks up to the first that is marked as the last; what follows
it is not looked at. A block holds its bytes as they are, or tokens written in two prefix
codes, one for literals and lengths and one for distances. The codes are fixed or declared
in front of the tokens. Faults are met in the order of the input, and what was written before
stays written.
-/
namespace BlockContainer.Deflate

def declarationCode (lengths : List Nat) : Inflating PrefixCode :=
  if lengths.all (· == 0) then pure ⟨.leaf 0, .leaf 0⟩
  else match PrefixCode.ofLengths? lengths with
    | none => throw .corrupt
    | some c => if c.isFull then pure c else throw .corrupt

/-- A code of a block. It may leave words unused only if it has just one word of one bit,
or none at all. -/
def tokenCode (lengths : List Nat) : Inflating PrefixCode :=
  match PrefixCode.ofLengths? lengths with
  | none => throw .corrupt
  | some c => if c.isFull || lengths.all (· ≤ 1) then pure c else throw .corrupt

/-- The next length and how many more times it is repeated. -/
def lengthRun (code : PrefixCode) (previous? : Option Nat) : Inflating (Nat × Nat) := do
  let s ← code.symbol
  if s < 16 then return (s, 0)
  else if s = 16 then
    let more ← number 2
    match previous? with
    | none => throw .corrupt
    | some previous => return (previous, more + 2)
  else if s = 17 then return (0, (← number 3) + 2)
  else return (0, (← number 7) + 10)

def readLengths (code : PrefixCode) (need : Nat) (previous? : Option Nat) : Inflating (List Nat) :=
  if need = 0 then pure []
  else do
    let (length, more) ← lengthRun code previous?
    require (more + 1 ≤ need)
    let rest ← readLengths code (need - (more + 1)) (some length)
    return List.replicate (more + 1) length ++ rest
termination_by need
decreasing_by omega

def placed (declared : List Nat) : List Nat :=
  (List.range declarationOrder.length).map fun s => declared.getD (declarationOrder.idxOf s) 0

structure BlockCodes where
  literals : PrefixCode
  distances : PrefixCode

def BlockCodes.fixed : BlockCodes where
  literals := (PrefixCode.ofLengths? FixedCode.literalLengths).getD .void
  distances := (PrefixCode.ofLengths? FixedCode.distanceLengths).getD .void

def readCodes : Inflating BlockCodes := do
  let literals := (← number 5) + 257
  let distances := (← number 5) + 1
  let declared := (← number 4) + 4
  require (literals ≤ 286 ∧ distances ≤ 30)
  let declared ← (List.replicate declared 3).mapM number
  let code ← declarationCode (placed declared)
  let lengths ← readLengths code (literals + distances) none
  require (lengths.getD endOfBlock 0 ≠ 0)
  return {
    literals := ← tokenCode (lengths.take literals)
    distances := ← tokenCode (lengths.drop literals) }

theorem consumes_declarationCode (lengths : List Nat) :
    Consumes BitSource.left 0 (declarationCode lengths) := by
  unfold declarationCode
  split
  · exact Consumes.pure _
  · split
    · exact Consumes.throw _
    · exact Consumes.ite (Consumes.pure _) (Consumes.throw _)

theorem consumes_tokenCode (lengths : List Nat) :
    Consumes BitSource.left 0 (tokenCode lengths) := by
  unfold tokenCode
  split
  · exact Consumes.throw _
  · exact Consumes.ite (Consumes.pure _) (Consumes.throw _)

theorem consumes_lengthRun (code : PrefixCode) (previous? : Option Nat) :
    Consumes BitSource.left 0 (lengthRun code previous?) := by
  refine Consumes.bindZero (k := 0) code.consumes_symbol fun s => ?_
  refine Consumes.ite (Consumes.pure _) (Consumes.ite ?_ (Consumes.ite ?_ ?_))
  · refine Consumes.bindZero (k := 0) (consumes_number 2) fun _ => ?_
    split
    · exact Consumes.throw _
    · exact Consumes.pure _
  · exact Consumes.bindZero (consumes_number 3) fun _ => Consumes.pure _
  · exact Consumes.bindZero (consumes_number 7) fun _ => Consumes.pure _

theorem consumes_readLengths (code : PrefixCode) (need : Nat) (previous? : Option Nat) :
    Consumes BitSource.left 0 (readLengths code need previous?) := by
  fun_induction readLengths code need previous? with
  | case1 => exact Consumes.pure _
  | case2 need previous? _ ih =>
    refine Consumes.bindZero (k := 0) (consumes_lengthRun code previous?) fun run => ?_
    exact Consumes.bindZero (k := 0) (consumes_require _) fun _ =>
      Consumes.bindZero (ih run.1 run.2) fun _ => Consumes.pure _

theorem consumes_readCodes : Consumes BitSource.left 0 readCodes := by
  refine Consumes.bindZero (k := 0) (consumes_number 5) fun _ =>
    Consumes.bindZero (k := 0) (consumes_number 5) fun _ =>
    Consumes.bindZero (k := 0) (consumes_number 4) fun _ =>
    Consumes.bindZero (k := 0) (consumes_require _) fun _ => ?_
  refine Consumes.bindZero (k := 0)
    (Consumes.mapM (fun width => (consumes_number width).of_le (Nat.zero_le _)) _) fun _ =>
    Consumes.bindZero (k := 0) (consumes_declarationCode _) fun code =>
    Consumes.bindZero (k := 0) (consumes_readLengths code _ _) fun _ =>
    Consumes.bindZero (k := 0) (consumes_require _) fun _ => ?_
  exact Consumes.bindZero (k := 0) (consumes_tokenCode _) fun _ =>
    Consumes.bindZero (consumes_tokenCode _) fun _ => Consumes.pure _

def select (range? : Option SymbolRange) : Inflating Nat :=
  match range? with
  | none => throw .corrupt
  | some range => do return range.first + (← number range.width)

def readToken? (codes : BlockCodes) : Inflating (Option Token) := do
  let s ← codes.literals.symbol
  if s < 256 then return some (.literal (UInt8.ofNat s))
  else if s = endOfBlock then return none
  else
    let length ← select SymbolRange.lengths[s - firstLengthSymbol]?
    let d ← codes.distances.symbol
    let distance ← select SymbolRange.distances[d]?
    return some (.copy length distance)

theorem consumes_select (range? : Option SymbolRange) :
    Consumes BitSource.left 0 (select range?) := by
  unfold select
  split
  · exact Consumes.throw _
  · next range =>
    exact (Consumes.bind (consumes_number range.width) fun _ => Consumes.pure _).of_le (by omega)

theorem consumes_readToken? (codes : BlockCodes) :
    Consumes BitSource.left 1 (readToken? codes) := by
  refine Consumes.bind (k := 0) codes.literals.consumes_symbol fun s => ?_
  split
  · exact Consumes.pure _
  · split
    · exact Consumes.pure _
    · refine Consumes.bind (k := 0) (consumes_select _) fun _ => ?_
      refine (Consumes.bind (k := 0) codes.distances.consumes_symbol fun _ => ?_).of_le (Nat.zero_le _)
      exact Consumes.bind (consumes_select _) fun _ => Consumes.pure _

structure Inflation where
  source : BitSource
  out : Array UInt8
deriving DecidableEq

namespace Inflation

def ofBytes (input : Bytes) : Inflation := ⟨.ofBytes input, #[]⟩

def left (s : Inflation) : Nat := s.source.left

end Inflation

/-- A part of a stream, with what it has written even if it fails. -/
abbrev Writing (α : Type) := EStateM Damage Inflation α

/-- Reads something that is not written itself. -/
def reading {α : Type} (m : Inflating α) : Writing α :=
  focus Inflation.source (fun s source => { s with source }) id m

theorem consumes_reading {α : Type} {m : Inflating α} {k : Nat}
    (h : Consumes BitSource.left k m) : Consumes Inflation.left k (reading m) :=
  Consumes.focus h (fun _ => rfl) fun _ _ => rfl

def readTokens (codes : BlockCodes) (s : Inflation) : EStateM.Result Damage Inflation Unit :=
  match _ : readToken? codes s.source with
  | .error e source => .error e { s with source }
  | .ok none source => .ok () { s with source }
  | .ok (some token) source =>
    if token.reaches s.out.size then readTokens codes ⟨source, token.write s.out⟩
    else .error .corrupt { s with source }
termination_by s.left
decreasing_by
  have := consumes_readToken? _ ‹_›
  simp only [Inflation.left]
  omega

theorem readTokens_eq (codes : BlockCodes) (s : Inflation) :
    readTokens codes s = match readToken? codes s.source with
      | .error e source => .error e { s with source }
      | .ok none source => .ok () { s with source }
      | .ok (some token) source =>
        if token.reaches s.out.size then readTokens codes ⟨source, token.write s.out⟩
        else .error .corrupt { s with source } := by
  rw [readTokens]
  split <;> simp only [*]

theorem consumes_readTokens (codes : BlockCodes) :
    Consumes Inflation.left 0 (readTokens codes) := by
  intro s
  fun_induction readTokens codes s with
  | case1 => intro _ _ h; cases h
  | case2 s source h =>
    intro _ _ h'
    cases h'
    have := consumes_readToken? codes h
    simp only [Inflation.left]
    omega
  | case3 s token source h _ ih =>
    intro a s' h'
    have := ih h'
    have := consumes_readToken? codes h
    simp only [Inflation.left] at *
    omega
  | case4 => intro _ _ h; cases h

def writeBytes (n : Nat) : Writing Unit := fun s =>
  let found := s.source.rest.take n
  let written : Inflation := ⟨⟨[], s.source.rest.drop n⟩, s.out ++ found⟩
  if found.length = n then .ok () written else .error .truncated written

theorem consumes_writeBytes (n : Nat) : Consumes Inflation.left 0 (writeBytes n) := by
  intro s a s' h
  simp only [writeBytes] at h
  split at h
  · cases h
    simp only [Inflation.left, BitSource.left, List.length_nil, List.length_drop]
    omega
  · cases h

def readStored : Writing Unit := do
  let counts ← reading (wholeBytes 4)
  let count := Bytes.toLittleEndian (counts.take 2)
  reading (require (count + Bytes.toLittleEndian (counts.drop 2) = 65535))
  writeBytes count

theorem consumes_readStored : Consumes Inflation.left 0 readStored :=
  Consumes.bindZero (k := 0) (consumes_reading (consumes_wholeBytes 4)) fun _ =>
    Consumes.bindZero (k := 0) (consumes_reading (consumes_require _)) fun _ =>
    consumes_writeBytes _

def readContent (kind : Nat) : Writing Unit :=
  if kind = 0 then readStored
  else if kind = 1 then readTokens .fixed
  else if kind = 2 then do readTokens (← reading readCodes)
  else throw .corrupt

theorem consumes_readContent (kind : Nat) : Consumes Inflation.left 0 (readContent kind) := by
  refine Consumes.ite consumes_readStored (Consumes.ite (consumes_readTokens _)
    (Consumes.ite ?_ (Consumes.throw _)))
  exact Consumes.bindZero (consumes_reading consumes_readCodes) fun codes =>
    consumes_readTokens codes

def readBlock : Writing Bool := do
  let last ← reading bit
  let kind ← reading (number 2)
  readContent kind
  return last

theorem consumes_readBlock : Consumes Inflation.left 1 readBlock := by
  refine Consumes.bind (k := 0) (consumes_reading consumes_bit) fun last => ?_
  refine (Consumes.bind (k := 0) (consumes_reading (consumes_number 2)) fun kind => ?_).of_le
    (Nat.zero_le _)
  exact Consumes.bind (consumes_readContent kind) fun _ => Consumes.pure _

def readBlocks (s : Inflation) : EStateM.Result Damage Inflation Unit :=
  match _ : readBlock s with
  | .error e s => .error e s
  | .ok true s => .ok () s
  | .ok false s' => readBlocks s'
termination_by s.left
decreasing_by
  have := consumes_readBlock ‹_›
  omega

theorem readBlocks_eq (s : Inflation) :
    readBlocks s = match readBlock s with
      | .error e s => .error e s
      | .ok true s => .ok () s
      | .ok false s' => readBlocks s' := by
  rw [readBlocks]
  split <;> simp only [*]

def inflate (input : Bytes) : Except Damage Bytes :=
  match readBlocks (.ofBytes input) with
  | .ok () s => .ok s.out.toList
  | .error e _ => .error e

/-- What is written up to the end of the stream, or to where it cannot be read further. -/
def written (input : Bytes) : Bytes :=
  match readBlocks (.ofBytes input) with
  | .ok () s => s.out.toList
  | .error _ s => s.out.toList

/-- The stream ends in the last byte of the input, and these are its data. -/
def isStreamOf (data input : Bytes) : Bool :=
  match readBlocks (.ofBytes input) with
  | .ok () s => s.source.rest.isEmpty && s.out.toList == data
  | .error _ _ => false

end BlockContainer.Deflate
