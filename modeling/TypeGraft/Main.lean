import TypeGraft.CommandLine
import TypeGraft.Text.Moment
import Std.Time.DateTime.Timestamp

/-!
# The program

Everything is decided by `TypeGraft.CommandLine.perform`. Here it is given the files on disk, and
what it says is printed and written.

**Which files.** All files of the projects around the working directory and around the arguments
are listed. Settings and what the arguments name are read at once, scripts only when they are
asked for: a performance that asks for scripts that were not read yet is done over with them.
Links to directories are not followed.
-/

namespace TypeGraft.Program

/-- A file on disk, with its bytes once they are read. -/
structure Source where
  path : String
  bytes : Option Bytes

/-- The components of an absolute path. -/
def partsOf (path : String) : List String := Path.normalParts (Path.ofString path).parts

/-- The path that is written with some components. -/
def pathOf (parts : List String) : String := (Path.mk "/" parts).toString

/-- Whether a path leads to anything. -/
def isThere (path : String) : IO Bool := do
  let here ← IO.currentDir
  (here / path).pathExists

/-- The paths of all files below a directory, at most `depth` levels deep. -/
def filesBelow : (depth : Nat) → (directory : String) → IO (List String)
  | 0, _ => pure []
  | depth + 1, directory => do
    let here ← IO.currentDir
    let entries ← try (here / directory).readDir catch _ => pure #[]
    let found ← entries.toList.mapM fun entry => do
      let info ← entry.path.symlinkMetadata
      if info.type matches .dir then filesBelow depth entry.path.toString
      else if ← entry.path.isDir then pure []
      else pure [entry.path.toString]
    pure found.flatten

/-- The outermost directory with a mark of a project that holds a directory, or the directory
itself. -/
def outermostProject (directory : List String) : IO (List String) := do
  for above in (List.range (directory.length + 1)).map directory.take do
    for marker in projectMarkers do
      if ← isThere (pathOf (above ++ [marker])) then return above
  return directory

/-- The bytes of a file; none where it cannot be read. -/
def bytesAt (path : String) : IO Bytes := do
  try pure (← IO.FS.readBinFile path).toList catch _ => pure []

/-- Read a file if it is among some paths. -/
def Source.readAmong (source : Source) (paths : List String) : IO Source := do
  if source.bytes.isNone && paths.contains source.path then
    pure { source with bytes := some (← bytesAt source.path) }
  else pure source

/-- The tree that holds some files. -/
def treeOf (working : List String) (sources : List Source) : FileTree where
  workingDirectory := working
  files := sources.map fun source => (partsOf source.path, source.bytes.getD [])

/-- Perform what the arguments ask for, over again while files are asked for that were not
read. -/
def performReading (working : List String) (stamp : Report.Stamp) (arguments : List String) :
    (rounds : Nat) → List Source → IO (Run CommandLine.Outcome)
  | 0, sources => pure (CommandLine.perform (treeOf working sources) stamp arguments)
  | rounds + 1, sources => do
    let run := CommandLine.perform (treeOf working sources) stamp arguments
    let isAskedFor (source : Source) : Bool :=
      source.bytes.isNone && run.reads.contains source.path
    if sources.any isAskedFor then
      performReading working stamp arguments rounds
        (← sources.mapM (·.readAmong run.reads))
    else pure run

/-- The files that the arguments may be about. -/
def sourcesFor (working : List String) (arguments : List String) : IO (List Source) := do
  let named ← arguments.filterM fun argument => do
    if argument = "" then pure false else isThere argument
  let namedParts := named.map fun argument =>
    (FileTree.absolute ⟨working, []⟩ (Path.ofString argument)).parts
  let roots ← (working :: namedParts.map List.dropLast).mapM outermostProject
  let paths ← (distinct roots).mapM fun root => filesBelow 64 (pathOf root)
  let atOnce := namedParts.map pathOf
  (distinct paths.flatten).mapM fun path => do
    let source : Source := ⟨path, none⟩
    if ".json".toList.isSuffixOf path.toList then source.readAmong [path]
    else source.readAmong atOnce

/-- Print and write what a performance says, and tell the code to exit with. -/
def deliver (outcome : CommandLine.Outcome) : IO UInt32 := do
  for (path, content) in outcome.written do
    IO.FS.writeFile path content
  IO.print outcome.output
  IO.eprint outcome.errors
  pure (UInt32.ofNat outcome.exitCode.toNat)

/-- Run the program. -/
def run (arguments : List String) : IO UInt32 := do
  let working := partsOf (← IO.currentDir).toString
  let now ← Std.Time.Timestamp.now
  let stamp : Report.Stamp := ⟨"1.0.0", momentText now.toSecondsSinceUnixEpoch.val.toNat⟩
  let sources ← sourcesFor working arguments
  let run ← performReading working stamp arguments (sources.length + 1) sources
  match run.outcome with
  | .ok outcome => deliver outcome
  | .error failure =>
    IO.eprintln ("Error: " ++ failure.message)
    pure 1

end TypeGraft.Program

/-- Run the program with its arguments. -/
def main (arguments : List String) : IO UInt32 := TypeGraft.Program.run arguments
