import TypeGraft.Text.Quoted

/-!
# The log

What a run has to say beside its result is a list of `TypeGraft.Event`s, in the order in
which they happened. An event has a level, an area of the program that it belongs to, and a
message.
-/

namespace TypeGraft

open Text (quoted)

/-- How much an event matters. -/
inductive Level where
  | debug
  | info
  | warning
deriving DecidableEq, Repr

/-- The rank of a level. -/
def Level.rank : Level → Nat
  | debug => 0
  | info => 1
  | warning => 2

/-- The word for a level. -/
def Level.word : Level → String
  | debug => "DEBUG"
  | info => "INFO"
  | warning => "WARNING"

/-- Something that happened in a run. -/
inductive Event where
  /-- A file declares a name again. -/
  | redeclared (path : String) (line : Nat) (name : String) (first : Nat)
  /-- Two names in a file stand for one declaration. -/
  | redundantAlias (file : String) (line : Nat) (name first : String) (firstLine : Nat)
  /-- A name is not declared where it was looked for. -/
  | notFound (file : String) (line : Nat) (name : String)
  /-- A module that names come from is not found. -/
  | moduleNotFound (origin specifier : String) (names : List String)
  /-- A specifier leads to no file. -/
  | unresolvable (specifier origin : String)
  /-- The description of a package cannot be read. -/
  | manifestIgnored (path reason : String)
  /-- A file was read. -/
  | loaded (path : String) (count : Nat)
  /-- Declarations were put into the block. -/
  | inlined (count : Nat)
  /-- Interfaces extend each other in a circle. -/
  | inheritanceCycle (labels : List String)
  /-- A component stays as it is because of an error. -/
  | untransformed (message path : String)
  /-- A name was not found at all. -/
  | leftUnresolved (file : String) (line : Nat) (name : String)
  /-- An entry of the paths in a configuration names no file. -/
  | pathsEntrySkipped (path pattern : String)
  /-- An entry of the paths in a configuration is of a form that has no alias. -/
  | pathsPatternUnsupported (path pattern : String)
deriving DecidableEq, Repr

namespace Event

/-- How much an event matters. -/
def level : Event → Level
  | redeclared .. | redundantAlias .. | inheritanceCycle .. | untransformed .. => .warning
  | loaded .. | inlined .. => .info
  | _ => .debug

/-- The area that an event belongs to. -/
def area : Event → String
  | redeclared .. => "typeinline.languages.typescript_lang"
  | redundantAlias .. => "typeinline.engine.aliases"
  | notFound .. => "typeinline.engine.resolver"
  | moduleNotFound .. => "typeinline.engine.loader"
  | unresolvable .. | manifestIgnored .. => "typeinline.index.modules"
  | loaded .. => "typeinline.engine.session"
  | inlined .. => "typeinline.engine.splicer"
  | inheritanceCycle .. => "typeinline.graph.cycles"
  | untransformed .. | leftUnresolved .. => "typeinline.api"
  | pathsEntrySkipped .. | pathsPatternUnsupported .. => "typeinline.config"

/-- What an event says. -/
def message : Event → String
  | redeclared path line name first =>
    s!"{path}:{line}: type {quoted name} redeclared (first at line {first}); " ++
      "keeping the last declaration"
  | redundantAlias file line name first firstLine =>
    s!"{file}:{line}: {quoted name} is a redundant alias of {quoted first} " ++
      s!"(line {firstLine}); using {quoted first}"
  | notFound file line name => s!"{file}:{line}: type {quoted name} not found"
  | moduleNotFound origin specifier names =>
    s!"{origin}: module {quoted specifier} not found; leaving " ++
      String.intercalate ", " names ++ " unresolved"
  | unresolvable specifier origin => s!"cannot resolve module {quoted specifier} from {origin}"
  | manifestIgnored path reason => s!"ignoring unreadable {path}: {reason}"
  | loaded path count => s!"loaded {path} ({count} declarations)"
  | inlined count => s!"inlined {count} declaration(s)"
  | inheritanceCycle labels =>
    "inheritance cycle between " ++ String.intercalate ", " labels ++
      "; ignoring the extends clauses inside it"
  | untransformed message path => s!"{message}; leaving {path} untransformed"
  | leftUnresolved file line name => s!"{file}:{line}: {quoted name} left unresolved"
  | pathsEntrySkipped path pattern => s!"{path}: skipping paths entry {quoted pattern}"
  | pathsPatternUnsupported path pattern =>
    s!"{path}: unsupported paths pattern {quoted pattern}"

end Event

end TypeGraft
