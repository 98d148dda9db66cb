import BlockContainer.Options
import BlockContainer.Reader.Pattern

/-! # Readers of sources

What a source is read with depends on what it covers: a range of a file can be split
while it is read, a pattern cannot.
-/
namespace BlockContainer

inductive Reader (α : Type) where
  | container (reader : ContainerReader α)
  | pattern (reader : PatternReader α)

namespace Reader

variable {α : Type}

def create (t : FileTree) (source : Source) (o : Options) : Except Error (Reader α) := do
  source.validate.mapError Error.configuration
  match source.mode with
  | .pattern => return pattern (.create source o.scanSize)
  | .file => return container (← ContainerReader.create t source o.scanSize)

def follow (t : FileTree) : Reader α → Reader α
  | container reader => container (reader.follow t)
  | pattern reader => pattern (reader.follow t)

def step {β : Type} (onContainer : ContainerReader.Step α β) (onPattern : PatternReader.Step α β) :
    EStateM Error (Reader α) β := fun r =>
  match r with
  | container reader =>
    match onContainer reader with
    | .ok b reader => .ok b (container reader)
    | .error e reader => .error e (container reader)
  | pattern reader =>
    match onPattern reader with
    | .ok b reader => .ok b (pattern reader)
    | .error e reader => .error e (pattern reader)

def start [RecordType α] (t : FileTree) : EStateM Error (Reader α) Bool :=
  step (ContainerReader.start t) (PatternReader.start t)

def advance [RecordType α] (t : FileTree) : EStateM Error (Reader α) Bool :=
  step ContainerReader.advance (PatternReader.advance t)

def current : Reader α → Except Error α
  | container reader => reader.current
  | pattern reader => reader.current

/-- Goes on with `take` when some records have been taken, the last one first. -/
def takeOnto [RecordType α] (t : FileTree) (taken : List α) (count : Nat) (r : Reader α) :
    List α × Except Error Unit × Reader α :=
  match count with
  | 0 => (taken.reverse, .ok (), r)
  | n + 1 =>
    match advance t r with
    | .error e r => (taken.reverse, .error e, r)
    | .ok false r => (taken.reverse, .ok (), r)
    | .ok true r =>
      match r.current with
      | .error e => (taken.reverse, .error e, r)
      | .ok record => takeOnto t (record :: taken) n r

def take [RecordType α] (t : FileTree) (count : Nat) (r : Reader α) :
    List α × Except Error Unit × Reader α :=
  takeOnto t [] count r

def fractionConsumed (β : Type) [Measure β] : Reader α → β
  | container reader => reader.fractionConsumed β
  | pattern reader => reader.fractionConsumed β

def trySplit (fraction : UInt64) : Reader α → Option Source × Reader α
  | container reader =>
    let (source?, reader) := reader.trySplit fraction
    (source?, container reader)
  | pattern reader => (none, pattern reader)

def currentSource : Reader α → Source
  | container reader => reader.currentSource
  | pattern reader => reader.source

def close : Reader α → Reader α
  | container reader => container reader.close
  | pattern reader => pattern reader.close

end Reader
end BlockContainer
