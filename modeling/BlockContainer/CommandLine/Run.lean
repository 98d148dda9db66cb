import BlockContainer.CommandLine.Report
import BlockContainer.Pool.Solo
import BlockContainer.Source.Bundle

/-! # The command line

Reads the containers that the arguments name, in bundles, and reports the records of each.
The workers of the pool go on one after another, which is one of the schedules that
threads can have.
-/
namespace BlockContainer.CommandLine

def inputs (o : Options) : List Bytes :=
  o.inputFiles ++ if o.inputPattern.isEmpty then [] else [o.inputPattern]

def bundles (t : FileTree) (o : Options) : Except Error (List Source) := do
  let cut ← (inputs o).mapM fun input =>
    ((Source.ofPattern input).withMinBundleSize o.minBundleSize).bundles t o.desiredBundleSize
  return cut.flatten

def workerCount (o : Options) : Nat := max o.threads.toNat 1

def readInputs (t : FileTree) (o : Options) (dump : Bool) (filter : Severity) : Report :=
  if (inputs o).isEmpty then .ofComplaint .noInput (some filter)
  else match bundles t o with
    | .error e => .ofFailure e filter
    | .ok sources =>
      let pool : Pool Record := .ofSources (workerCount o) sources
      .ofPool (pool.workInTurn ⟨t, o, dump⟩) filter

/-- The log is set up after the list of inputs is read and before the scan size is checked. -/
def applyChoices (t : FileTree) (c : Choices) : Report :=
  match c.listInputs t c.plainOptions with
  | .error e => .ofComplaint (.refused e)
  | .ok o =>
    match c.setScanSize o with
    | .error e => .ofComplaint (.refused e) (some c.severity)
    | .ok o => readInputs t o (c.dump?.getD false) c.severity

def configure (t : FileTree) (c : Choices) : Except Complaint Choices :=
  match c.configuration? with
  | none | some [] => .ok c
  | some path =>
    match t.read path with
    | .error reason => .error (.configurationFile path reason)
    | .ok text => (c.addConfiguration text).mapError Complaint.usage

def run (t : FileTree) (arguments : List Bytes) : Report :=
  match Choices.ofArguments arguments with
  | .error e => .ofComplaint (.usage e)
  | .ok c =>
    if c.help then .ofHelp
    else match configure t c with
      | .error complaint => .ofComplaint complaint
      | .ok c => applyChoices t c

end BlockContainer.CommandLine
