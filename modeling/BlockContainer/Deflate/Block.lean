import BlockContainer.Deflate.PrefixCode
import BlockContainer.Deflate.Token
import BlockContainer.Deflate.WordLengths

/-! # Written blocks

A block of tokens is written in the form that takes the fewest bytes: with the fixed codes,
with codes of its own, or as plain bytes. Lengths of codes are declared in runs.
-/
namespace BlockContainer.Deflate

structure WordTables where
  literals : Array (List Bool)
  distances : Array (List Bool)

namespace WordTables

def ofLengths (literals distances : List Nat) : WordTables where
  literals := ((PrefixCode.ofLengths? literals).getD .void).wordTable literals.length
  distances := ((PrefixCode.ofLengths? distances).getD .void).wordTable distances.length

def fixed : WordTables := ofLengths FixedCode.literalLengths FixedCode.distanceLengths

end WordTables

def selectBits (range? : Option SymbolRange) (n : Nat) : List Bool :=
  match range? with
  | none => []
  | some range => numberBits range.width (n - range.first)

def Token.bits (words : WordTables) : Token → List Bool
  | literal b => words.literals.getD b.toNat []
  | copy length distance =>
    let l := SymbolRange.indexOf SymbolRange.lengths length
    let d := SymbolRange.indexOf SymbolRange.distances distance
    words.literals.getD (firstLengthSymbol + l) [] ++ selectBits SymbolRange.lengths[l]? length ++
      (words.distances.getD d [] ++ selectBits SymbolRange.distances[d]? distance)

def tokenBits (words : WordTables) (tokens : List Token) : List Bool :=
  tokens.flatMap (Token.bits words) ++ words.literals.getD endOfBlock []

structure Frequencies where
  literals : Array Nat
  distances : Array Nat

namespace Frequencies

def add (f : Frequencies) : Token → Frequencies
  | .literal b => { f with literals := f.literals.modify b.toNat (· + 1) }
  | .copy length distance =>
    let l := firstLengthSymbol + SymbolRange.indexOf SymbolRange.lengths length
    let d := SymbolRange.indexOf SymbolRange.distances distance
    ⟨f.literals.modify l (· + 1), f.distances.modify d (· + 1)⟩

def ofTokens (tokens : List Token) : Frequencies :=
  tokens.foldl add
    ⟨(Array.replicate 286 0).setIfInBounds endOfBlock 1, Array.replicate 30 0⟩

end Frequencies

abbrev LengthSymbol := Nat × List Bool

def zeroRun (n : Nat) : List LengthSymbol :=
  if n < 3 then List.replicate n (0, [])
  else if n ≤ 10 then [(17, numberBits 3 (n - 3))]
  else (18, numberBits 7 (min n 138 - 11)) :: zeroRun (n - min n 138)
termination_by n

def repeatRun (length n : Nat) : List LengthSymbol :=
  if n < 3 then List.replicate n (length, [])
  else (16, numberBits 2 (min n 6 - 3)) :: repeatRun length (n - min n 6)
termination_by n

def declare : List Nat → List LengthSymbol
  | [] => []
  | length :: rest =>
    let same := (rest.takeWhile (· == length)).length
    (if length = 0 then zeroRun (same + 1) else (length, []) :: repeatRun length same) ++
      declare (rest.drop same)
termination_by lengths => lengths.length
decreasing_by simp only [List.length_drop, List.length_cons]; omega

/-- Without the zeros at the end, but no shorter than `least`. -/
def trimmed (least : Nat) (lengths : List Nat) : List Nat :=
  let used := lengths.length - (lengths.reverse.takeWhile (· == 0)).length
  lengths.take (max least used)

def declarationBits (literals distances : List Nat) : List Bool :=
  let symbols := declare literals ++ declare distances
  let counts := symbols.foldl (fun c s => c.modify s.1 (· + 1))
    (Array.replicate declarationOrder.length 0)
  let lengths := wordLengths 7 (atLeastTwo counts.toList)
  let ordered := trimmed 4 (declarationOrder.map fun s => lengths.getD s 0)
  let words := ((PrefixCode.ofLengths? lengths).getD .void).wordTable lengths.length
  numberBits 5 (literals.length - 257) ++ numberBits 5 (distances.length - 1) ++
    numberBits 4 (ordered.length - 4) ++ ordered.flatMap (numberBits 3) ++
    symbols.flatMap fun s => words.getD s.1 [] ++ s.2

def declaredBits (tokens : List Token) : List Bool :=
  let f := Frequencies.ofTokens tokens
  let literals := trimmed 257 (wordLengths PrefixCode.maxLength (atLeastTwo f.literals.toList))
  let distances := trimmed 1 (wordLengths PrefixCode.maxLength (atLeastTwo f.distances.toList))
  declarationBits literals distances ++ tokenBits (.ofLengths literals distances) tokens

def byteBits (b : Bytes) : List Bool := b.flatMap fun x => numberBits 8 x.toNat

def storedLimit : Nat := 65535

def storedBytes (data : Bytes) : Bytes :=
  Bytes.ofLittleEndian 2 data.length ++ Bytes.ofLittleEndian 2 (storedLimit - data.length) ++ data

/-- The bytes that hold so many bits behind the first three. -/
def bytesFor (bits : List Bool) : Nat := (bits.length + 3 + 7) / 8

/-- A block that begins `offset` bits into a byte. -/
def blockBits (offset : Nat) (last : Bool) (data : Bytes) (tokens : List Token) : List Bool :=
  let fixed := tokenBits .fixed tokens
  let declared := declaredBits tokens
  let least := min (bytesFor fixed) (bytesFor declared)
  if data.length + 4 ≤ least ∧ data.length ≤ storedLimit then
    last :: numberBits 2 0 ++ List.replicate ((16 - (offset + 3)) % 8) false ++
      byteBits (storedBytes data)
  else if bytesFor fixed = least then last :: numberBits 2 1 ++ fixed
  else last :: numberBits 2 2 ++ declared

end BlockContainer.Deflate
