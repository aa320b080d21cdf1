/-!
# Arguments of the command line

`TypeGraft.CommandLine.Request.ofArguments` reads the arguments of the program.

**Flags** start with a hyphen. Those of the program stand before the name of the command, those
of a command anywhere behind it. Two hyphens alone end the flags. Flags of one letter may be
written together. No flag takes a value. An unknown flag makes the arguments unusable, even
where help is asked for; otherwise a request for help or for the version comes before all else.
-/

namespace TypeGraft.CommandLine

/-- What a flag says. -/
inductive Flag where
  | json
  | verbose
  | version
  | help
  | write
  | cleanLineBreaks (value : Bool)
  | cleanInterfaces (value : Bool)
  | strict
  | checkUnresolved
deriving DecidableEq, Repr

/-- The flags that may stand at a place, by their words and by their letters. -/
structure Flags where
  words : List (String × Flag)
  letters : List (Char × Flag)

/-- The flags of the program. -/
def Flags.ofProgram : Flags where
  words := [("--json", .json), ("--verbose", .verbose), ("--version", .version), ("--help", .help)]
  letters := [('v', .verbose)]

/-- The flags for inlining. -/
def Flags.ofTransform : Flags where
  words :=
    [("--write", .write), ("--clean-newline", .cleanLineBreaks true),
      ("--no-clean-newline", .cleanLineBreaks false), ("--clean-interface", .cleanInterfaces true),
      ("--no-clean-interface", .cleanInterfaces false), ("--strict", .strict),
      ("--check-unresolved", .checkUnresolved), ("--help", .help)]
  letters := []

/-- The flags for extraction. -/
def Flags.ofExtract : Flags := ⟨[("--strict", .strict), ("--help", .help)], []⟩

/-- The flags for the list of requests. -/
def Flags.ofRequests : Flags := ⟨[("--help", .help)], []⟩

/-- The flags that an argument stands for. -/
def Flags.read? (flags : Flags) (argument : String) : Option (List Flag) :=
  match List.lookup argument flags.words with
  | some flag => some [flag]
  | none =>
    match argument.toList with
    | '-' :: '-' :: _ => none
    | _ :: letters => letters.mapM fun letter => List.lookup letter flags.letters
    | [] => none

/-- Whether an argument is to be read as flags. -/
def isFlags (argument : String) : Bool :=
  argument.toList.head? == some '-' && argument != "-"

/-- Take the flags out of some arguments. If flags have to stand in front, those behind the
first other argument are left alone. -/
def Flags.split? (flags : Flags) (inFront : Bool) : List String → Option (List Flag × List String)
  | [] => some ([], [])
  | argument :: rest =>
    if argument = "--" then some ([], rest)
    else if isFlags argument then
      match flags.read? argument, flags.split? inFront rest with
      | some read, some (more, others) => some (read ++ more, others)
      | _, _ => none
    else if inFront then some ([], argument :: rest)
    else (flags.split? inFront rest).map fun (read, others) => (read, argument :: others)

/-- How types are to be inlined. -/
structure TransformOptions where
  write : Bool
  cleanLineBreaks : Option Bool
  cleanInterfaces : Option Bool
  strict : Bool
  checkUnresolved : Bool
deriving DecidableEq, Repr

/-- A command with its arguments. -/
inductive Command where
  | transform (path : String) (options : TransformOptions)
  | extract (path : String) (names : List String) (strict : Bool)
  | requests (path : String)
deriving DecidableEq, Repr

/-- The file that a command is about. -/
def Command.path : Command → String
  | transform path _ => path
  | extract path _ _ => path
  | requests path => path

/-- What the arguments ask for. -/
inductive Request where
  | run (json : Bool) (verbosity : Nat) (command : Command)
  | version
  | help
  /-- The arguments cannot be used. -/
  | unusable
deriving DecidableEq, Repr

/-- The last choice that flags make. -/
def lastChoice {α : Type} (choice : Flag → Option α) (flags : List Flag) : Option α :=
  (flags.filterMap choice).getLast?

/-- The options that flags state. -/
def TransformOptions.ofFlags (flags : List Flag) : TransformOptions where
  write := flags.contains .write
  cleanLineBreaks := lastChoice (fun | .cleanLineBreaks value => some value | _ => none) flags
  cleanInterfaces := lastChoice (fun | .cleanInterfaces value => some value | _ => none) flags
  strict := flags.contains .strict
  checkUnresolved := flags.contains .checkUnresolved

/-- Read the arguments of a command, of which `make` builds the command. -/
def readCommand (flags : Flags) (arguments : List String) (json : Bool) (verbosity : Nat)
    (make : List Flag → List String → Option Command) : Request :=
  match flags.split? false arguments with
  | none => .unusable
  | some (read, others) =>
    if read.contains .help then .help
    else
      match make read others with
      | some command => .run json verbosity command
      | none => .unusable

/-- Read the name and the arguments of a command. -/
def readNamed (name : String) (arguments : List String) (json : Bool) (verbosity : Nat) :
    Request :=
  if name = "transform" then
    readCommand .ofTransform arguments json verbosity fun flags others =>
      match others with
      | [path] => some (.transform path (.ofFlags flags))
      | _ => none
  else if name = "extract" then
    readCommand .ofExtract arguments json verbosity fun flags others =>
      match others with
      | path :: name :: names => some (.extract path (name :: names) (flags.contains .strict))
      | _ => none
  else if name = "requests" then
    readCommand .ofRequests arguments json verbosity fun _ others =>
      match others with
      | [path] => some (.requests path)
      | _ => none
  else .unusable

/-- Read the arguments of the program. -/
def Request.ofArguments (arguments : List String) : Request :=
  match Flags.ofProgram.split? true arguments with
  | none => .unusable
  | some (flags, others) =>
    match flags.find? fun flag => flag = .help ∨ flag = .version with
    | some .help => .help
    | some _ => .version
    | none =>
      match others with
      | [] => .unusable
      | name :: arguments =>
        readNamed name arguments (flags.contains .json) (flags.count .verbose)

end TypeGraft.CommandLine
