import BlockContainer.CommandLine.Arguments

/-! # Choices of a user

The values given, in the types of their options. What the arguments give stands, whatever
the configuration file says; what neither gives has a default.
-/
namespace BlockContainer.CommandLine

inductive Severity where
  | debug | info | warning | error
deriving DecidableEq, Repr

namespace Severity

def name : Severity → Bytes
  | debug => "debug"
  | info => "info"
  | warning => "warning"
  | error => "error"

/-- Whatever is no name of a severity stands for errors only. -/
def ofName (name : Bytes) : Severity :=
  if name = debug.name then debug
  else if name = info.name then info
  else if name = warning.name then warning
  else error

end Severity

structure Choices where
  configuration? : Option Bytes := none
  help : Bool := false
  input? : Option Bytes := none
  inputList? : Option Bytes := none
  bundleSize? : Option UInt64 := none
  minBundleSize? : Option UInt64 := none
  threads? : Option UInt32 := none
  dynamicSplitting? : Option Bool := none
  splitCheckInterval? : Option UInt64 := none
  scanSize? : Option UInt64 := none
  dump? : Option Bool := none
  logLevel? : Option Bytes := none
deriving DecidableEq, Repr

def isDigit (c : UInt8) : Bool := 0x30 ≤ c && c ≤ 0x39

def readNatural (o : OptionName) (bound : Nat) (text : Bytes) : Except UsageError Nat :=
  let n := text.foldl (fun n c => n * 10 + (c.toNat - 0x30)) 0
  if text.isEmpty ∨ !text.all isDigit ∨ bound ≤ n then .error (.valueInvalid o text) else .ok n

def readWord (o : OptionName) (text : Bytes) : Except UsageError UInt64 := do
  return UInt64.ofNat (← readNatural o UInt64.size text)

def readShortWord (o : OptionName) (text : Bytes) : Except UsageError UInt32 := do
  return UInt32.ofNat (← readNatural o UInt32.size text)

def lowerCase (text : Bytes) : Bytes :=
  text.map fun c => if 0x41 ≤ c ∧ c ≤ 0x5a then c + 0x20 else c

def readBoolean (o : OptionName) (text : Bytes) : Except UsageError Bool :=
  let word := lowerCase text
  if word ∈ (["true", "yes", "on", "1"] : List Bytes) then .ok true
  else if word ∈ (["false", "no", "off", "0"] : List Bytes) then .ok false
  else .error (.valueInvalid o text)

namespace Choices

def has (c : Choices) : OptionName → Bool
  | .configuration => c.configuration?.isSome
  | .help => c.help
  | .input => c.input?.isSome
  | .inputList => c.inputList?.isSome
  | .bundleSize => c.bundleSize?.isSome
  | .minBundleSize => c.minBundleSize?.isSome
  | .threads => c.threads?.isSome
  | .dynamicSplitting => c.dynamicSplitting?.isSome
  | .splitCheckInterval => c.splitCheckInterval?.isSome
  | .scanSize => c.scanSize?.isSome
  | .dump => c.dump?.isSome
  | .logLevel => c.logLevel?.isSome

def put (c : Choices) (g : Given) : Except UsageError Choices :=
  match g.option with
  | .configuration => .ok { c with configuration? := some g.value }
  | .help => .ok { c with help := true }
  | .input => .ok { c with input? := some g.value }
  | .inputList => .ok { c with inputList? := some g.value }
  | .bundleSize => do return { c with bundleSize? := some (← readWord g.option g.value) }
  | .minBundleSize => do return { c with minBundleSize? := some (← readWord g.option g.value) }
  | .threads => do return { c with threads? := some (← readShortWord g.option g.value) }
  | .dynamicSplitting => do
    return { c with dynamicSplitting? := some (← readBoolean g.option g.value) }
  | .splitCheckInterval => do
    return { c with splitCheckInterval? := some (← readWord g.option g.value) }
  | .scanSize => do return { c with scanSize? := some (← readWord g.option g.value) }
  | .dump => do return { c with dump? := some (← readBoolean g.option g.value) }
  | .logLevel => .ok { c with logLevel? := some g.value }

/-- Adds what is given in one place. What was chosen before stands; its new value is not read. -/
def add (c : Choices) (given : List Given) : Except UsageError Choices :=
  given.foldlM (fun d g =>
    if c.has g.option then .ok d
    else if d.has g.option then .error (.givenTwice g.option)
    else d.put g) c

def ofArguments (arguments : List Bytes) : Except UsageError Choices := do
  add {} (← readArguments arguments)

def addConfiguration (c : Choices) (text : Bytes) : Except UsageError Choices := do
  c.add (← readConfiguration text)

def severity (c : Choices) : Severity := (c.logLevel?.map Severity.ofName).getD .info

/-- The options without those that can be refused. -/
def plainOptions (c : Choices) : Options :=
  let d := Options.standard
  { d with
    inputPattern := c.input?.getD d.inputPattern
    desiredBundleSize := c.bundleSize?.getD d.desiredBundleSize
    minBundleSize := c.minBundleSize?.getD d.minBundleSize
    threads := c.threads?.getD d.threads
    dynamicSplitting := c.dynamicSplitting?.getD d.dynamicSplitting
    splitCheckInterval := c.splitCheckInterval?.getD d.splitCheckInterval }

def listInputs (c : Choices) (t : FileTree) (o : Options) : Except Error Options :=
  match c.inputList? with
  | none | some [] => .ok o
  | some path => o.readInputList t path

def setScanSize (c : Choices) (o : Options) : Except Error Options :=
  match c.scanSize? with
  | none => .ok o
  | some size => o.withScanSize size

end Choices
end BlockContainer.CommandLine
