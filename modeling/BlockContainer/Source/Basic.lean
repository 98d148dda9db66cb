import BlockContainer.Glob.Expansion
import BlockContainer.Schema.Binding

/-! # Sources

A source describes records: those of a range of bytes of one file, or those of all files
that match a pattern. Records belong to the range that holds the first byte of their block,
so ranges that partition a file partition its records, wherever they are cut.
-/
namespace BlockContainer

inductive SourceMode where
  | pattern | file
deriving DecidableEq, Repr

def SourceMode.name : SourceMode → Bytes
  | pattern => "FILEPATTERN"
  | file => "SINGLE_FILE"

structure Source where
  mode : SourceMode
  path : Bytes
  start : UInt64
  stop : UInt64
  minBundleSize : UInt64
  binding : SchemaBinding
deriving DecidableEq, Repr

namespace Source

/-- The stop offset that stands for the end of the file. -/
def unbounded : UInt64 := 0xffffffffffffffff

def ofPattern (pattern : Bytes) : Source where
  mode := .pattern
  path := pattern
  start := 0
  stop := unbounded
  minBundleSize := 128000
  binding := .ofFile

def withBinding (s : Source) (binding : SchemaBinding) : Source := { s with binding }

def withMinBundleSize (s : Source) (minBundleSize : UInt64) : Source := { s with minBundleSize }

def subrange (s : Source) (path : Bytes) (start stop : UInt64) : Source :=
  { s with mode := .file, path, start, stop }

def stopText (s : Source) : Bytes :=
  if s.stop = unbounded then "EOF" else Bytes.decimal s.stop.toNat

def text (s : Source) : Bytes :=
  "Source[" ++ s.mode.name ++ " " ++ s.path ++ s!" [{s.start.toNat}, " ++ s.stopText ++ ") " ++
  s.binding.text ++ s!", min bundle {s.minBundleSize.toNat}]"

def validate (s : Source) : Except ConfigurationError Unit :=
  if s.path.isEmpty then .error .sourceUnnamed
  else if s.stop < s.start then .error (.sourceReversed s.start s.stop)
  else if s.mode = .pattern ∧ (s.start ≠ 0 ∨ s.stop ≠ unbounded) then .error (.patternRange s.text)
  else .ok ()

def resolvedStop (s : Source) (t : FileTree) : Except Error UInt64 :=
  if s.stop = unbounded then do return UInt64.ofNat (← t.fileSize s.path) else .ok s.stop

def estimatedSize (s : Source) (t : FileTree) : Except Error UInt64 :=
  match s.mode with
  | .pattern => (t.glob s.path).foldlM (fun n path => do
      return n + UInt64.ofNat (← t.fileSize path)) 0
  | .file => do
    let stop ← s.resolvedStop t
    return if s.start < stop then stop - s.start else 0

end Source
end BlockContainer
