import BlockContainer.Error

/-! # File trees

The files that a program can see, at one moment. A path leads from the working directory
down by names; `.` and an empty name stay where they are and `..` goes up. What lies
outside of the working directory is not known to hold anything.

Files have numbers, so that one that is written anew can be told from another one that has
taken its name.
-/
namespace BlockContainer

inductive FileEntry where
  | file (number : Nat) (content : Bytes)
  | directory
deriving DecidableEq, Repr

/-- Entries by the names that lead to them, the last name first. -/
structure FileTree where
  entries : List (List Bytes × FileEntry) := []
  /-- How many files have been made; the next one has this number. -/
  made : Nat := 0
deriving DecidableEq, Repr

namespace FileTree

inductive Place where
  | inside (names : List Bytes)
  | outside
deriving DecidableEq, Repr

def slash : UInt8 := 0x2f

/-- A path ends before its first zero byte. -/
def untilZero (path : Bytes) : Bytes := path.takeWhile (· != 0)

def names (path : Bytes) : List Bytes :=
  match path with
  | [] => [[]]
  | c :: rest =>
    match names rest with
    | [] => [[c]]
    | first :: more => if c = slash then [] :: first :: more else (c :: first) :: more

def entryAt? (t : FileTree) : Place → Option FileEntry
  | .outside => some .directory
  | .inside [] => some .directory
  | .inside names => (t.entries.find? fun e => e.1 == names).map Prod.snd

def up : Place → Place
  | .inside (_ :: names) => .inside names
  | _ => .outside

def enter (t : FileTree) (place : Place) (name : Bytes) : Except PathError Place :=
  match t.entryAt? place with
  | none => .error .missing
  | some (.file _ _) => .error .notDirectory
  | some .directory =>
    if name.isEmpty ∨ name = "." then .ok place
    else if name = ".." then .ok (up place)
    else match place with
      | .outside => .error .missing
      | .inside names =>
        if (t.entryAt? (.inside (name :: names))).isSome then .ok (.inside (name :: names))
        else .error .missing

def place (t : FileTree) (path : Bytes) : Except PathError Place :=
  match untilZero path with
  | [] => .error .missing
  | c :: rest =>
    (names (c :: rest)).foldlM t.enter (if c = slash then .outside else .inside [])

def entry (t : FileTree) (path : Bytes) : Except PathError FileEntry := do
  match t.entryAt? (← t.place path) with
  | some e => .ok e
  | none => .error .missing

def isDirectory (t : FileTree) (path : Bytes) : Bool :=
  match t.entry path with
  | .ok .directory => true
  | _ => false

def fileSize (t : FileTree) (path : Bytes) : Except Error Nat :=
  match t.entry path with
  | .ok (.file _ content) => .ok content.length
  | .ok .directory => .error (.service (.stat path .isDirectory))
  | .error reason => .error (.service (.stat path reason))

/-- What a reader of a path is given: the content, and the number of the file. A directory
opens like an empty file. -/
def openPath (t : FileTree) (path : Bytes) : Except PathError (Option Nat × Bytes) := do
  match ← t.entry path with
  | .file number content => .ok (some number, content)
  | .directory => .ok (none, [])

def read (t : FileTree) (path : Bytes) : Except PathError Bytes := Prod.snd <$> t.openPath path

def contentOf? (t : FileTree) (number : Nat) : Option Bytes :=
  t.entries.findSome? fun
    | (_, .file n content) => if n = number then some content else none
    | (_, .directory) => none

def list? (t : FileTree) (path : Bytes) : Option (List Bytes) :=
  match t.place path with
  | .error _ => none
  | .ok place =>
    if t.entryAt? place ≠ some .directory then none
    else
      let below := match place with
        | .outside => []
        | .inside names => t.entries.filterMap fun e =>
          match e.1 with
          | name :: above => if above = names then some name else none
          | [] => none
      some ("." :: ".." :: below)

def erase (t : FileTree) (names : List Bytes) : FileTree :=
  { t with entries := t.entries.filter fun e => e.1 != names }

def insert (t : FileTree) (names : List Bytes) (e : FileEntry) : FileTree :=
  match names with
  | [] => t
  | name :: above =>
    let t := if (t.entryAt? (.inside above)).isSome then t else t.insert above .directory
    { t with entries := (name :: above, e) :: (t.erase (name :: above)).entries }

def plainNames (path : Bytes) : List Bytes :=
  ((names (untilZero path)).filter fun (n : Bytes) => !n.isEmpty && n != ".").reverse

/-- Puts a content under names. A file that has them stays the same file. -/
def write (t : FileTree) (names : List Bytes) (content : Bytes) : FileTree :=
  match t.entryAt? (.inside names) with
  | some (.file number _) => t.insert names (.file number content)
  | _ => { t.insert names (.file t.made content) with made := t.made + 1 }

def putFile (t : FileTree) (path content : Bytes) : FileTree := t.write (plainNames path) content

def putDirectory (t : FileTree) (path : Bytes) : FileTree :=
  if t.isDirectory path then t else t.insert (plainNames path) .directory

def remove (t : FileTree) (path : Bytes) : FileTree := t.erase (plainNames path)

def creatable? (t : FileTree) (path : Bytes) : Option (List Bytes) :=
  match t.place path with
  | .ok (.inside names) =>
    match t.entryAt? (.inside names) with
    | some (.file _ _) => some names
    | _ => none
  | .ok .outside => none
  | .error _ =>
    match (names (untilZero path)).reverse with
    | [] => none
    | last :: above =>
      if last.isEmpty ∨ (untilZero path).head? = some slash then none
      else match above.reverse.foldlM t.enter (.inside []) with
        | .ok (.inside names) =>
          if t.entryAt? (.inside names) = some .directory then some (last :: names) else none
        | _ => none

end FileTree
end BlockContainer
