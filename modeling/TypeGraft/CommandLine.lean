import TypeGraft.CommandLine.Arguments
import TypeGraft.Project.Reader
import TypeGraft.Files.World
import TypeGraft.Inlining
import TypeGraft.Report

/-!
# The command line

`TypeGraft.CommandLine.perform` does what the arguments of the program ask for, in a tree of
files, and says what to print, what to write and with which code to exit.

* `TypeGraft.CommandLine.transformFile` inlines the types of a component.
* `TypeGraft.CommandLine.extractFrom` prints the block for types of a script.
* `TypeGraft.CommandLine.listRequests` lists what a component asks for.

A fault is told on the error stream and decides the code to exit with. Any other failure is
handed on.
-/

namespace TypeGraft.CommandLine

/-- What a command comes to. -/
structure Answer where
  output : String
  /-- What goes to the error stream, behind the log. -/
  remarks : List String
  /-- Files to write. -/
  written : List (String × String)
  exitCode : Int

/-- What the program comes to. -/
structure Outcome where
  exitCode : Int
  output : String
  errors : String
  /-- Files to write. -/
  written : List (String × String)
deriving Repr

/-- The code to exit with where arguments cannot be used. -/
def unusableCode : Int := 2

/-- The code to exit with where requested types were not found. -/
def partialCode : Int := 6

/-- The lines of a text that are ended one by one. -/
def endedLines (lines : List String) : String := String.join (lines.map (· ++ "\n"))

/-- The line of an event in the log, if it is shown. Warnings are always shown; to be verbose
adds what was read and written, and to be so twice adds all. -/
def logLine? (verbosity : Nat) (event : Event) : Option String :=
  match verbosity with
  | 0 => if event.level = .warning then some event.message else none
  | verbosity + 1 =>
    if verbosity = 0 ∧ event.level = .debug then none
    else some s!"{event.level.word} {event.area}: {event.message}"

/-- The lines that name what was not found. -/
def unresolvedRemarks (names : List String) : List String :=
  names.map fun name => s!"warning: {name} could not be resolved"

/-- The text in a file. -/
def codeAt (t : FileTree) (path : String) : Except Failure String :=
  match t.source path with
  | .error fault => .error (.fault fault)
  | .ok bytes =>
    match bytes.toString? with
    | some code => .ok code
    | none => .error .undecodable

/-- Some texts as a value. -/
def texts (items : List String) : Json := .array (items.map .string)

/-- A value with a line break behind it. -/
def shown (json : Json) : String := json.render ++ "\n"

/-! ### Commands -/

/-- What is reported of a component. -/
def inlinedReport (stamp : Report.Stamp) (path : String) (write : Bool) (result : Inlined) : Json :=
  Report.envelope stamp "transform"
    [("changed", .bool result.changed), ("emitted", .integer result.emitted.length),
      ("unresolved", .integer result.unresolved.length)]
    ([("path", .string path), ("changed", .bool result.changed),
      ("requested", texts result.requested), ("emitted", texts result.emitted),
      ("unresolved", texts result.unresolved), ("loaded", texts result.loaded),
      ("cycles", .array (result.cycles.map texts)),
      ("error", (result.error.map Json.string).getD .null)] ++
      (if write then [] else [("code", .string result.code)]))

/-- What to print for a component. -/
def inlinedAnswer (stamp : Report.Stamp) (json : Bool) (path : String)
    (options : TransformOptions) (result : Inlined) : Answer where
  output :=
    if json then shown (inlinedReport stamp path options.write result)
    else if options.write then
      (if result.changed then "updated: " else "unchanged: ") ++ path ++ "\n"
    else result.code
  remarks := unresolvedRemarks result.unresolved
  written := if options.write && result.changed then [(path, result.code)] else []
  exitCode := if options.checkUnresolved && !result.unresolved.isEmpty then partialCode else 0

/-- Inline the types of a component. -/
def transformFile (t : FileTree) (stamp : Report.Stamp) (json : Bool) (path : String)
    (options : TransformOptions) : Run Answer :=
  match t.project (Path.ofString path) with
  | .error failure => ⟨.error failure, [], []⟩
  | .ok (project, events) =>
    match codeAt t path with
    | .error failure => ⟨.error failure, [], events⟩
    | .ok code =>
      let project := project.withCleaning options.cleanLineBreaks options.cleanInterfaces
      let run := inlineTypes (.ofTree t project.aliases) project options.strict
        (t.absoluteText path) code
      ⟨run.outcome.map (inlinedAnswer stamp json path options), run.reads, events ++ run.events⟩

/-- What is reported of an extraction. -/
def extractionReport (stamp : Report.Stamp) (path : String) (names : List String)
    (result : Extraction) : Json :=
  Report.envelope stamp "extract"
    [("emitted", .integer result.emitted.length), ("unresolved", .integer result.unresolved.length)]
    [("path", .string path), ("requested", texts names), ("emitted", texts result.emitted),
      ("unresolved", texts result.unresolved), ("loaded", texts result.loaded),
      ("cycles", .array (result.cycles.map texts)), ("block", .string result.block)]

/-- What to print for an extraction. -/
def extractionAnswer (stamp : Report.Stamp) (json : Bool) (path : String) (names : List String)
    (result : Extraction) : Answer where
  output :=
    if json then shown (extractionReport stamp path names result)
    else if result.block = "" then ""
    else result.block ++ "\n"
  remarks := unresolvedRemarks result.unresolved
  written := []
  exitCode := if result.unresolved.isEmpty then 0 else partialCode

/-- Print the block for types of a script. -/
def extractFrom (t : FileTree) (stamp : Report.Stamp) (json : Bool) (path : String)
    (names : List String) (strict : Bool) : Run Answer :=
  match t.project (Path.ofString path) with
  | .error failure => ⟨.error failure, [], []⟩
  | .ok (project, events) =>
    let run := TypeGraft.extract (.ofTree t project.aliases) strict (t.absoluteText path) names
    ⟨run.outcome.map (extractionAnswer stamp json path names), run.reads, events ++ run.events⟩

/-- The requests of a setup script with their lines in the component. -/
def locatedRequests (script : SetupScript) (code : String) : List (TypeGraft.Request × Nat) :=
  script.requests.map fun r => (r, r.line + script.element.linesBefore code)

/-- What is reported of the requests of a component. -/
def requestsReport (stamp : Report.Stamp) (path code : String) (script : Option SetupScript) :
    Json :=
  let found := (script.map (locatedRequests · code)).getD []
  Report.envelope stamp "requests"
    [("requests", .integer found.length), ("script_setup", .bool script.isSome)]
    [("path", .string path),
      ("requests", .array (found.map fun (r, line) =>
        .object [("name", .string r.name), ("macro", .string r.macroName),
          ("line", .integer line)]))]

/-- The lines that list the requests of a component. -/
def requestsText (path code : String) (script : Option SetupScript) : String :=
  match script with
  | none => s!"{path}: no <script setup lang=\"ts\"> block"
  | some script =>
    let rows := (locatedRequests script code).map fun (r, line) =>
      [r.name, r.macroName, Report.location path (some line)]
    (Report.grid? ["name", "macro", "location"] rows).getD ""

/-- List what a component asks for. -/
def listRequests (t : FileTree) (stamp : Report.Stamp) (json : Bool) (path : String) : Run Answer :=
  match t.project (Path.ofString path) with
  | .error failure => ⟨.error failure, [], []⟩
  | .ok (project, events) =>
    let outcome := (codeAt t path).bind fun code =>
      match SetupScript.ofComponent? project.macros path code with
      | .error fault => .error (.fault fault)
      | .ok script =>
        let output := if json then shown (requestsReport stamp path code script)
          else requestsText path code script ++ "\n"
        .ok ⟨output, [], [], 0⟩
    ⟨outcome, [], events⟩

/-! ### The program -/

/-- Whether an argument leads to a file. One that ends in a slash or in a point component asks
for a directory. -/
def leadsToFile (t : FileTree) (argument : String) : Bool :=
  let last := ((Path.splitSlashes argument.toList).getLast?).getD []
  !(last.isEmpty || last == ['.']) && t.isFile (Path.ofString argument)

/-- What the program comes to where the arguments cannot be used. -/
def unusable (reason : String) : Outcome := ⟨unusableCode, "", endedLines ["Error: " ++ reason], []⟩

/-- How to use the program. -/
def usage : String := endedLines
  ["Usage: typeinline [--json] [-v] COMMAND", "",
    "  transform [--write] [--[no-]clean-newline] [--[no-]clean-interface] [--strict]",
    "            [--check-unresolved] PATH",
    "  extract [--strict] PATH NAMES...",
    "  requests PATH"]

/-- Print the log and then the answer of a command, or the fault that ended it. -/
def conclude (verbosity : Nat) (run : Run Answer) : Run Outcome :=
  let log := run.events.filterMap (logLine? verbosity)
  let outcome : Except Failure Outcome :=
    match run.outcome with
    | .ok answer =>
      .ok ⟨answer.exitCode, answer.output, endedLines (log ++ answer.remarks), answer.written⟩
    | .error (.fault fault) =>
      .ok ⟨fault.exitCode, "", endedLines (log ++ ["Error: " ++ fault.message]), []⟩
    | .error failure => .error failure
  ⟨outcome, run.reads, run.events⟩

/-- Perform a command. -/
def Command.perform (t : FileTree) (stamp : Report.Stamp) (json : Bool) (verbosity : Nat)
    (command : Command) : Run Outcome :=
  if leadsToFile t command.path then
    conclude verbosity
      (match command with
      | .transform path options => transformFile t stamp json path options
      | .extract path names strict => extractFrom t stamp json path names strict
      | .requests path => listRequests t stamp json path)
  else ⟨.ok (unusable s!"'{command.path}' is not a file"), [], []⟩

/-- Do what the arguments of the program ask for. -/
def perform (t : FileTree) (stamp : Report.Stamp) (arguments : List String) : Run Outcome :=
  match Request.ofArguments arguments with
  | .run json verbosity command => command.perform t stamp json verbosity
  | .version => ⟨.ok ⟨0, "typeinline, version " ++ stamp.version ++ "\n", "", []⟩, [], []⟩
  | .help => ⟨.ok ⟨0, usage, "", []⟩, [], []⟩
  | .unusable => ⟨.ok (unusable "the arguments cannot be used"), [], []⟩

end TypeGraft.CommandLine
