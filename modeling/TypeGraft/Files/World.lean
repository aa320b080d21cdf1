import TypeGraft.Files.Specifier
import TypeGraft.Resolution

/-!
# The world of a file tree

`TypeGraft.World.ofTree` is what a search sees of a tree of files. All files of the tree are
places of the world.
-/

namespace TypeGraft

/-- The bytes of the file at a path. -/
def FileTree.source (t : FileTree) (path : String) : Except Fault Bytes :=
  match t.read (Path.ofString path) with
  | .ok bytes => .ok bytes
  | .error problem => .error (.unreadable path problem.describe)

/-- The absolute path of a path, without points, as text. -/
def FileTree.absoluteText (t : FileTree) (path : String) : String :=
  (t.absolute (Path.ofString path)).toString

/-- What a search sees of a tree of files. -/
def World.ofTree (t : FileTree) (rules : List AliasRule) : World where
  read := t.source
  locate := t.locate rules
  places := t.files.map fun file => (Path.mk "/" file.1).toString

end TypeGraft
