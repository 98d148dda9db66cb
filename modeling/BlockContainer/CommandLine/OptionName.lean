import BlockContainer.Bytes

/-! # Names of command line options -/
namespace BlockContainer.CommandLine

inductive OptionName where
  | configuration
  | help
  | input
  | inputList
  | bundleSize
  | minBundleSize
  | threads
  | dynamicSplitting
  | splitCheckInterval
  | scanSize
  | dump
  | logLevel
deriving DecidableEq, Repr

namespace OptionName

def all : List OptionName :=
  [configuration, help, input, inputList, bundleSize, minBundleSize, threads, dynamicSplitting,
    splitCheckInterval, scanSize, dump, logLevel]

def name : OptionName → Bytes
  | configuration => "cfg"
  | help => "help"
  | input => "input"
  | inputList => "input-file-list"
  | bundleSize => "bundle-size"
  | minBundleSize => "min-bundle-size"
  | threads => "nthreads"
  | dynamicSplitting => "dynamic-splitting"
  | splitCheckInterval => "split-check-interval-ms"
  | scanSize => "sync-scan-buffer-size"
  | dump => "dump"
  | logLevel => "log-level"

def letter? : OptionName → Option UInt8
  | configuration => some 0x63
  | help => some 0x68
  | input => some 0x69
  | inputList => some 0x66
  | _ => none

def isFlag : OptionName → Bool
  | help | dump => true
  | _ => false

def purpose : OptionName → Bytes
  | configuration => "configuration file"
  | help => "print this help"
  | input => "pattern of the container files to read (may contain * and ?)"
  | inputList => "file that lists the files to read, one a line"
  | bundleSize => "desired size of each bundle in bytes"
  | minBundleSize => "least size of each bundle in bytes"
  | threads => "number of reader threads"
  | dynamicSplitting => "split running readers to feed idle threads"
  | splitCheckInterval => "milliseconds between two checks for straggling readers"
  | scanSize => "bytes taken at a time when scanning for markers"
  | dump => "print every record"
  | logLevel => "what to log (debug, info, warning, error)"

def ofName? (name : Bytes) : Option OptionName := all.find? fun o => o.name == name

def ofLetter? (letter : UInt8) : Option OptionName := all.find? fun o => o.letter? == some letter

/-- A configuration file names no other one. -/
def isConfigurable (o : OptionName) : Bool := o != configuration

end OptionName
end BlockContainer.CommandLine
