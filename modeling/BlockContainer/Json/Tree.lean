import BlockContainer.Json.Token

/-! # JSON trees

Every value is a node with a text and an ordered list of named children. Objects and
arrays have no text, the elements of an array have no names, and scalars and strings
have no children, so an empty array and a scalar look alike from the side of children.
A key may occur more than once; looking it up finds its first child.

`ofTokens?` reads the lexemes from left to right and keeps the containers that are
still open on a stack.
-/
namespace BlockContainer.Json

inductive Tree where
  | node (text : Bytes) (children : List (Bytes × Tree))

namespace Tree

def text : Tree → Bytes
  | node text _ => text

def children : Tree → List (Bytes × Tree)
  | node _ children => children

def leaf (text : Bytes) : Tree := node text []

def child? (t : Tree) (key : Bytes) : Option Tree :=
  (t.children.find? fun c => c.1 == key).map Prod.snd

def childText? (t : Tree) (key : Bytes) : Option Bytes := (t.child? key).map text

/-- A container that is still open, with its finished children, the last one first. -/
inductive Frame where
  | array (done : List (Bytes × Tree))
  | object (done : List (Bytes × Tree)) (key : Bytes)

inductive Expects where
  | value
  | valueOrClose
  | keyOrClose (done : List (Bytes × Tree))
  | key (done : List (Bytes × Tree))
  | colon
  | separator (finished : Tree)

def close (done : List (Bytes × Tree)) : Tree := node [] done.reverse

/-- Reads on after a value is finished or a container is opened. -/
def build : Expects → List Frame → List Token → Option Tree
  | .separator t, [], [] => some t
  | _, _, [] => none
  | .value, stack, .scalar text :: rest => build (.separator (leaf text)) stack rest
  | .value, stack, .string text :: rest => build (.separator (leaf text)) stack rest
  | .value, stack, .openArray :: rest => build .valueOrClose (.array [] :: stack) rest
  | .value, stack, .openObject :: rest => build (.keyOrClose []) stack rest
  | .valueOrClose, .array done :: stack, .closeArray :: rest =>
      build (.separator (close done)) stack rest
  | .valueOrClose, stack, .scalar text :: rest => build (.separator (leaf text)) stack rest
  | .valueOrClose, stack, .string text :: rest => build (.separator (leaf text)) stack rest
  | .valueOrClose, stack, .openArray :: rest => build .valueOrClose (.array [] :: stack) rest
  | .valueOrClose, stack, .openObject :: rest => build (.keyOrClose []) stack rest
  | .keyOrClose done, stack, .closeObject :: rest => build (.separator (close done)) stack rest
  | .keyOrClose done, stack, .string key :: rest =>
      build .colon (.object done key :: stack) rest
  | .key done, stack, .string key :: rest => build .colon (.object done key :: stack) rest
  | .colon, stack, .colon :: rest => build .value stack rest
  | .separator t, .array done :: stack, .comma :: rest =>
      build .value (.array (([], t) :: done) :: stack) rest
  | .separator t, .array done :: stack, .closeArray :: rest =>
      build (.separator (close (([], t) :: done))) stack rest
  | .separator t, .object done key :: stack, .comma :: rest =>
      build (.key ((key, t) :: done)) stack rest
  | .separator t, .object done key :: stack, .closeObject :: rest =>
      build (.separator (close ((key, t) :: done))) stack rest
  | _, _, _ => none

def ofTokens? (ts : List Token) : Option Tree := build .value [] ts

def ofText? (text : Bytes) : Option Tree := (tokens? text).bind ofTokens?

end Tree
end BlockContainer.Json
