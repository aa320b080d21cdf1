import TypeGraft.Files.Alias
import TypeGraft.Files.Path
import TypeGraft.Request
import TypeGraft.Splice.Cleaning

/-!
# Projects

A `TypeGraft.Project` says how the components of a project are treated: which aliases its
specifiers may use, which macros ask for types, and what is cleaned away.
-/

namespace TypeGraft

/-- How the components of a project are treated. -/
structure Project where
  /-- The directory of the project, if there is one. -/
  root : Option Path
  aliases : List AliasRule
  macros : List String
  cleaning : Cleaning

namespace Project

/-- A project of which nothing is said. -/
def standard : Project := ⟨none, [], Request.standardMacros, .none⟩

/-- The project with another choice of what is cleaned away, where a choice is made. -/
def withCleaning (project : Project) (lineBreaks interfaces : Option Bool) : Project :=
  { project with
    cleaning := ⟨lineBreaks.getD project.cleaning.lineBreaks,
      interfaces.getD project.cleaning.interfaces⟩ }

end Project

end TypeGraft
