import BlockContainer.CommandLine.Choices
import BlockContainer.Pool.Basic

/-! # Reports of a run

What the command line answers with: an exit code, lines of output below the banner,
at most one complaint, and what it logs as errors.
-/
namespace BlockContainer.CommandLine

inductive Complaint where
  | usage (cause : UsageError)
  | configurationFile (path : Bytes) (reason : PathError)
  | refused (cause : Error)
  | noInput
deriving DecidableEq, Repr

namespace Complaint

def text : Complaint → Bytes
  | usage cause => "ERROR: " ++ cause.message ++ "\n\n"
  | configurationFile path reason =>
      "Unable to open configuration file: " ++ path ++ " (" ++ reason.message ++ ")\n"
  | refused cause => "ERROR: " ++ cause.message ++ "\n"
  | noInput => "ERROR: no input given, use --input or --input-file-list\n"

def exitCode : Complaint → UInt8
  | configurationFile _ _ => 2
  | _ => 1

/-- A refusal by the file system is logged where it happens. -/
def errors : Complaint → List Bytes
  | refused cause => cause.logged?.toList
  | _ => []

end Complaint

structure Report where
  exitCode : UInt8 := 0
  lines : List Bytes := []
  complaint? : Option Complaint := none
  errors : List Bytes := []
  /-- The least severity that is logged, once it has been set. -/
  filter? : Option Severity := none

namespace Report

def banner : List Bytes :=
  ["",
    " _     _            _              _ _ _",
    "| |__ | | ___   ___| | _____ _ __ | (_) |_",
    "| '_ \\| |/ _ \\ / __| |/ / __| '_ \\| | | __|",
    "| |_) | | (_) | (__|   <\\__ \\ |_) | | | |_",
    "|_.__/|_|\\___/ \\___|_|\\_\\___/ .__/|_|_|\\__|",
    "                            |_|",
    "Build time:"]

def optionLine (o : OptionName) : Bytes :=
  let letter : Bytes := match o.letter? with
    | some c => "-" ++ [c] ++ ", "
    | none => "    "
  let value : Bytes := if o.isFlag then "" else " <value>"
  "  " ++ letter ++ "--" ++ o.name ++ value ++ ": " ++ o.purpose

def headline : Bytes :=
  "blocksplit -- Reads container files in parallel bundles and reports the records in each."

def optionTable : List Bytes := "Options:" :: OptionName.all.map optionLine

def ofHelp : Report where
  lines := headline :: optionTable

def ofComplaint (c : Complaint) (filter? : Option Severity := none) : Report where
  exitCode := c.exitCode
  complaint? := some c
  errors := c.errors
  filter? := filter?

def ofFailure (e : Error) (filter : Severity) : Report where
  exitCode := 2
  errors := e.logged?.toList ++ [e.message]
  filter? := some filter

def tallyLine (tally : Tally) : Bytes :=
  tally.rest.text ++ s!": {tally.records} records"

def totalRecords (tallies : List Tally) : Nat := tallies.foldr (fun tally n => tally.records + n) 0

def totalLine (tallies : List Tally) : Bytes :=
  s!"Total: {totalRecords tallies} records in {tallies.length} bundles"

def failureLines (source : Source) (e : Error) : List Bytes :=
  e.logged?.toList ++ ["Failed to read " ++ source.text ++ ": " ++ e.message]

def ofPool {α : Type} (p : Pool α) (filter : Severity) : Report :=
  let dumped := p.dumped.reverse
  match p.outcome with
  | .ok tallies =>
    { lines := dumped ++ tallies.map tallyLine ++ [totalLine tallies], filter? := some filter }
  | .error e =>
    { exitCode := 2
      lines := dumped
      errors := p.failures.reverse.flatMap (fun f => failureLines f.1 f.2) ++ [e.message]
      filter? := some filter }

end Report
end BlockContainer.CommandLine
