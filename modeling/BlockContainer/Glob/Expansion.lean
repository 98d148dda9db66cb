import BlockContainer.FileTree
import BlockContainer.Glob.Pattern

/-! # Expanding a path pattern

The part of a pattern behind its last slash is matched against the names in the directory
before it, which is expanded first when it is a pattern itself. A name without special
bytes only has to exist. A pattern that ends with a slash asks for directories.
-/
namespace BlockContainer.Glob

def isSpecial (pattern : Bytes) : Bool :=
  match pattern with
  | [] => false
  | [b] => b == 0x3f || b == 0x2a || b == openBracket
  | b :: c :: rest =>
    if b = backslash then isSpecial rest
    else b == 0x3f || b == 0x2a || b == openBracket || isSpecial (c :: rest)

def isPlain (pattern : Bytes) : Bool := !isSpecial pattern && !pattern.contains backslash

def unquoted : Bytes → Bytes
  | [] => []
  | [b] => if b = backslash then [] else [b]
  | b :: c :: rest => if b = backslash then c :: unquoted rest else b :: unquoted (c :: rest)

/-- Drops a last backslash that is not quoted itself. -/
def closed (pattern : Bytes) : Bytes :=
  if (pattern.reverse.takeWhile (· == backslash)).length % 2 = 1 then pattern.dropLast else pattern

theorem length_closed_le (pattern : Bytes) : (closed pattern).length ≤ pattern.length := by
  unfold closed
  split
  · simp
  · exact Nat.le_refl _

def splitAtSlash? (pattern : Bytes) : Option (Bytes × Bytes) :=
  let name := (pattern.reverse.takeWhile (· != FileTree.slash)).reverse
  if name.length = pattern.length then none
  else some (pattern.take (pattern.length - name.length - 1), name)

theorem splitAtSlash?_length {pattern directory name : Bytes}
    (h : splitAtSlash? pattern = some (directory, name)) : directory.length < pattern.length := by
  simp only [splitAtSlash?] at h
  split at h
  · cases h
  · next hn =>
    have hle := (List.takeWhile_sublist (· != FileTree.slash) (l := pattern.reverse)).length_le
    simp only [List.length_reverse] at hn hle
    cases h
    simp only [List.length_take, List.length_reverse]
    omega

def joined (directory name : Bytes) : Bytes :=
  if directory = [FileTree.slash] then directory ++ name else directory ++ FileTree.slash :: name

def inDirectory (t : FileTree) (onlyDirectories : Bool) (directory pattern : Bytes) : List Bytes :=
  if isPlain pattern then
    match t.place (directory ++ FileTree.slash :: pattern) with
    | .ok _ => [pattern]
    | .error _ => []
  else
    ((t.list? directory).getD []).filter fun name =>
      (!onlyDirectories || t.isDirectory (joined directory name)) &&
        Pattern.accepts pattern name

def expand (t : FileTree) (onlyDirectories marks : Bool) (pattern : Bytes) : List Bytes :=
  let onlyDirectories := onlyDirectories || pattern.getLast? == some FileTree.slash
  let marked (paths : List Bytes) := if marks then
      paths.map fun p => if t.isDirectory p then p ++ [FileTree.slash] else p
    else paths
  match _ : splitAtSlash? pattern with
  | none => if pattern.isEmpty then [] else marked (inDirectory t onlyDirectories "." pattern)
  | some (directory, name) =>
    if directory.isEmpty ∨ directory = [backslash] then
      marked ((inDirectory t onlyDirectories [FileTree.slash] name).map (joined [FileTree.slash]))
    else if name.isEmpty ∧ 1 < directory.length then
      expand t onlyDirectories true (closed directory)
    else if isSpecial directory then
      marked ((expand t true false (closed directory)).flatMap fun d =>
        (inDirectory t onlyDirectories d name).map (joined d))
    else
      let d := unquoted directory
      marked ((inDirectory t onlyDirectories d name).map (joined d))
termination_by pattern.length
decreasing_by
  all_goals
    have := splitAtSlash?_length ‹_›
    have := length_closed_le directory
    omega

end BlockContainer.Glob

namespace BlockContainer.FileTree

def glob (t : FileTree) (pattern : Bytes) : List Bytes :=
  (Glob.expand t false false (untilZero pattern)).mergeSort fun a b => a ≤ b

end BlockContainer.FileTree
