import BlockContainer.CommandLine.Run

/-! # The program

Takes in the working directory, runs the command line on it and prints the report.
-/
namespace BlockContainer

def bytesOf (s : String) : Bytes := s.toUTF8.toList

/-- The tree with the entries of a directory and all that is below them. -/
partial def addEntries (above : List Bytes) (t : FileTree) (entries : Array IO.FS.DirEntry) :
    IO FileTree :=
  entries.foldlM (fun t e => do
    let names := bytesOf e.fileName :: above
    if ← e.path.isDir then
      addEntries names (t.insert names .directory) (← e.path.readDir)
    else
      return t.write names (← IO.FS.readBinFile e.path).toList) t

def writeLine (stream : IO.FS.Stream) (line : Bytes) : IO Unit :=
  stream.write ⟨(line ++ [0x0a]).toArray⟩

end BlockContainer

open BlockContainer in
def main (arguments : List String) : IO UInt32 := do
  let tree ← addEntries [] {} (← (← IO.FS.realPath ".").readDir)
  let report := CommandLine.run tree (arguments.map bytesOf)
  let output ← IO.getStdout
  let log ← IO.getStderr
  CommandLine.Report.banner.forM (writeLine output)
  report.lines.forM (writeLine output)
  report.errors.forM fun line => writeLine log ("[error] " ++ line)
  if let some complaint := report.complaint? then log.write ⟨complaint.text.toArray⟩
  return report.exitCode.toUInt32
