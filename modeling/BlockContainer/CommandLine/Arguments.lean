import BlockContainer.CommandLine.OptionName
import BlockContainer.Options

/-! # Arguments and configuration lines

Both give options values. An argument names an option by `--name` or by `-` and its
letter; the value follows after `=`, behind the letter, or as the next argument. Flags of
one letter can stand together. Arguments that name no option are passed over, and so are
all behind `--`. A configuration line is `name = value`; `#` begins a comment.
-/
namespace BlockContainer.CommandLine

inductive UsageError where
  | unknownOption (name : Bytes)
  | valueMissing (o : OptionName)
  | valueUnexpected (o : OptionName)
  | givenTwice (o : OptionName)
  | valueInvalid (o : OptionName) (value : Bytes)
  | notAnAssignment (line : Bytes)
deriving DecidableEq, Repr

def UsageError.message : UsageError → Bytes
  | unknownOption name => "unknown option '" ++ name ++ "'"
  | valueMissing o => "option '" ++ o.name ++ "' needs a value"
  | valueUnexpected o => "option '" ++ o.name ++ "' takes no value"
  | givenTwice o => "option '" ++ o.name ++ "' is given twice"
  | valueInvalid o value => "'" ++ value ++ "' is no value for option '" ++ o.name ++ "'"
  | notAnAssignment line => "no value is assigned in '" ++ line ++ "'"

structure Given where
  option : OptionName
  value : Bytes
deriving DecidableEq, Repr

def Given.flag (o : OptionName) : Given := ⟨o, "true"⟩

def dash : UInt8 := 0x2d
def equals : UInt8 := 0x3d
def hash : UInt8 := 0x23

/-- What an argument gives, and the option whose value is the next argument. -/
structure ArgumentReading where
  given : List Given := []
  awaiting? : Option OptionName := none

def splitAssignment (text : Bytes) : Bytes × Option Bytes :=
  match text.dropWhile (· != equals) with
  | [] => (text, none)
  | _ :: value => (text.takeWhile (· != equals), some value)

def readLong (text : Bytes) : Except UsageError ArgumentReading :=
  let (name, value?) := splitAssignment text
  match OptionName.ofName? name, value? with
  | none, _ => .error (.unknownOption name)
  | some o, none => .ok (if o.isFlag then ⟨[.flag o], none⟩ else ⟨[], some o⟩)
  | some o, some value =>
    if o.isFlag then .error (.valueUnexpected o)
    else if value.isEmpty then .error (.valueMissing o)
    else .ok ⟨[⟨o, value⟩], none⟩

def readShort : Bytes → Except UsageError ArgumentReading
  | [] => .ok ⟨[], none⟩
  | letter :: rest =>
    match OptionName.ofLetter? letter with
    | none => .error (.unknownOption [letter])
    | some o =>
      if o.isFlag then do
        let r ← readShort rest
        return { r with given := .flag o :: r.given }
      else if rest.isEmpty then .ok ⟨[], some o⟩
      else .ok ⟨[⟨o, rest⟩], none⟩

def readArgument : Bytes → Except UsageError ArgumentReading
  | [] => .ok {}
  | c :: text =>
    if c ≠ dash then .ok {}
    else match text with
      | [] => .ok {}
      | d :: name => if d = dash then readLong name else readShort text

def endOfOptions : Bytes := [dash, dash]

def readArguments : List Bytes → Except UsageError (List Given)
  | [] => .ok []
  | argument :: rest =>
    if argument = endOfOptions then .ok []
    else do
      let r ← readArgument argument
      match r.awaiting?, rest with
      | none, rest => return r.given ++ (← readArguments rest)
      | some o, value :: rest => return r.given ++ ⟨o, value⟩ :: (← readArguments rest)
      | some o, [] => throw (.valueMissing o)

def isBlank (c : UInt8) : Bool := c == 0x20 || c == 0x09 || c == 0x0d

/-- What a configuration line gives, unless it is blank. -/
def readAssignment? (line : Bytes) : Except UsageError (Option Given) :=
  let text := Options.trim isBlank (line.takeWhile (· != hash))
  if text.isEmpty then .ok none
  else match splitAssignment text with
    | (_, none) => .error (.notAnAssignment text)
    | (name, some value) =>
      match (OptionName.ofName? (Options.trim isBlank name)).filter OptionName.isConfigurable with
      | none => .error (.unknownOption (Options.trim isBlank name))
      | some o => .ok (some ⟨o, Options.trim isBlank value⟩)

def readConfiguration (text : Bytes) : Except UsageError (List Given) := do
  return (← (Options.lines text).mapM readAssignment?).filterMap id

end BlockContainer.CommandLine
