import TypeGraft.Declaration
import TypeGraft.Table

/-!
# The outline of a file

A `TypeGraft.Outline` is all that is kept of a script: the types it declares, what it
imports, and what it exports.
-/

namespace TypeGraft

/-- One name that an import brings in, or that an export passes on. -/
structure Binding where
  /-- The name it has here. -/
  name : String
  /-- The name it has in the module it comes from. -/
  foreignName : String
  /-- The module it comes from, as it is written. -/
  specifier : String
  span : Span
  line : Nat
deriving DecidableEq, Repr

/-- An import statement, with what it takes to write it anew. -/
structure Import where
  span : Span
  /-- The name of the module in its quotes. -/
  quotedModule : String
  typeOnly : Bool
  terminated : Bool
  default : Option Binding
  /-- The name for all of the module, as it is written. -/
  wholeModule : Option String
  /-- The names in braces, each with its text. -/
  named : List (Binding × String)
deriving DecidableEq, Repr

/-- What a script declares, imports and exports. -/
structure Outline where
  path : String
  source : Bytes
  /-- The declarations by name. A name that is declared again keeps its place and stands for
  the last declaration. -/
  declarations : Table String Declaration
  imports : Table String Binding
  importList : List Import
  /-- The names under which names of this file are exported. -/
  exports : Table String String
  /-- The names under which names of other modules are exported. -/
  reexports : Table String Binding
  /-- The modules of which everything is exported. -/
  starExports : List String

namespace Outline

/-- The outline of a file of which nothing is known yet. -/
def empty (path : String) (source : Bytes) : Outline := ⟨path, source, [], [], [], [], [], []⟩

/-- The line of a position: one more than the line feeds before it. -/
def lineAt (source : Bytes) (position : Int) : Nat := source.lineFeeds position.toNat + 1

/-- The text of a span of the file. -/
def text (outline : Outline) (span : Span) : String :=
  Bytes.toStringLossy (span.slice outline.source)

end Outline

end TypeGraft
