import TypeGraft.Files.Tree

/-!
# The root of a project

The root of a project is a directory that holds one of the files that mark it.
`TypeGraft.FileTree.projectRoot?` finds the one that a path belongs to.
-/

namespace TypeGraft

/-- The file that holds the settings of a project. -/
def settingsName : String := "typeinline.json"

/-- The file that holds the options of the compiler, unless the settings name another one. -/
def compilerOptionsName : String := "tsconfig.json"

/-- The names that mark the root of a project. -/
def projectMarkers : List String := [settingsName, compilerOptionsName, "package.json"]

/-- The nearest directory, from a path upwards, that holds a marker. -/
def FileTree.projectRoot? (t : FileTree) (start : Path) : Option Path :=
  let start := t.absolute start
  let first := if t.isFile start then start.parent else start
  first.upwards.find? fun directory =>
    projectMarkers.any fun name => t.exists_ (directory.join name)

end TypeGraft
