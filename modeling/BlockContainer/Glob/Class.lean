import BlockContainer.Bytes

/-! # Named classes of bytes

The classes that a set of a pattern can name, as they are for ASCII. The name of a class
is a run of small letters before `z`, of no more than a fixed length.
-/
namespace BlockContainer.Glob

def between (first last b : UInt8) : Bool := first ≤ b && b ≤ last

def isLower : UInt8 → Bool := between 0x61 0x7a
def isUpper : UInt8 → Bool := between 0x41 0x5a
def isDigit : UInt8 → Bool := between 0x30 0x39
def isAlpha (b : UInt8) : Bool := isLower b || isUpper b
def isGraph : UInt8 → Bool := between 0x21 0x7e

def classes : List (Bytes × (UInt8 → Bool)) := [
  ("alpha", isAlpha), ("digit", isDigit), ("alnum", fun b => isAlpha b || isDigit b),
  ("upper", isUpper), ("lower", isLower), ("graph", isGraph),
  ("print", between 0x20 0x7e), ("blank", fun b => b == 0x20 || b == 0x09),
  ("space", fun b => b == 0x20 || between 0x09 0x0d b),
  ("cntrl", fun b => b < 0x20 || b == 0x7f),
  ("punct", fun b => isGraph b && !isAlpha b && !isDigit b),
  ("xdigit", fun b => isDigit b || between 0x61 0x66 b || between 0x41 0x46 b)]

def classNamed? (name : Bytes) : Option (UInt8 → Bool) :=
  (classes.find? fun c => c.1 == name).map Prod.snd

/-- A name of a class has fewer letters. -/
def classNameLimit : Nat := 2048

def openBracket : UInt8 := 0x5b
def closeBracket : UInt8 := 0x5d
def backslash : UInt8 := 0x5c
def hyphen : UInt8 := 0x2d
def dot : UInt8 := 0x2e
def colon : UInt8 := 0x3a
def equalsSign : UInt8 := 0x3d

/-- What stands between marks in brackets of its own, read behind the opening mark. -/
inductive Marked where
  /-- What is between the marks, and what is behind the closing one. -/
  | closed (inner rest : Bytes)
  /-- Nothing that can stand between these marks: the bracket is a byte like any other. -/
  | plain
  /-- More than can stand between these marks. -/
  | endless
deriving DecidableEq, Repr

namespace Marked

def className (limit : Nat) (input : Bytes) : Marked :=
  let name := input.takeWhile (between 0x61 0x79)
  if limit ≤ name.length then endless
  else match input.drop name.length with
    | 0x3a :: 0x5d :: rest => closed name rest
    | _ => plain

def equivalent : Bytes → Marked
  | b :: 0x3d :: 0x5d :: rest => closed [b] rest
  | _ => plain

/-- Everything up to the closing mark, the first in the input that is one. -/
def symbol : Bytes → Marked
  | [] => endless
  | b :: rest =>
    if b = dot ∧ rest.head? = some closeBracket then closed [] rest.tail
    else match symbol rest with
      | closed inner rest => closed (b :: inner) rest
      | other => other

theorem className_length {limit : Nat} {input inner rest : Bytes}
    (h : className limit input = closed inner rest) : rest.length < input.length := by
  simp only [className] at h
  split at h
  · cases h
  · split at h
    · next more hd =>
      have := congrArg List.length hd
      simp only [List.length_drop, List.length_cons] at this
      cases h
      omega
    · cases h

theorem equivalent_length {input inner rest : Bytes} (h : equivalent input = closed inner rest) :
    rest.length < input.length := by
  unfold equivalent at h
  split at h <;> cases h
  simp only [List.length_cons]
  omega

theorem symbol_length {input inner rest : Bytes} (h : symbol input = closed inner rest) :
    rest.length < input.length := by
  fun_induction symbol input generalizing inner rest with
  | case1 => cases h
  | case2 b tail =>
    cases h
    simp only [List.length_tail, List.length_cons]
    omega
  | case3 b tail _ more left hs ih =>
    cases h
    have := ih hs
    simp only [List.length_cons]
    omega
  | case4 b tail _ hne _ => exact absurd h (hne inner rest)

end Marked
end BlockContainer.Glob
