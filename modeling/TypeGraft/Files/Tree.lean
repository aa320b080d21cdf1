import TypeGraft.Files.Path
import TypeGraft.Text.Decoding
import TypeGraft.Table

/-!
# Trees of files

A `TypeGraft.FileTree` holds files by their absolute components, and a working directory.
There are no links, so a path leads to at most one entry (`TypeGraft.FileTree.find`).
-/

namespace TypeGraft

/-- What a path leads to. -/
inductive FileEntry where
  | file (bytes : Bytes)
  | directory
deriving Repr

/-- Why a path leads nowhere, or cannot be read. -/
inductive ReadProblem where
  | missing
  /-- Something on the way is a file. -/
  | notDirectory
  | isDirectory
deriving DecidableEq, Repr

/-- The words for a problem. -/
def ReadProblem.describe : ReadProblem → String
  | missing => "No such file or directory"
  | notDirectory => "Not a directory"
  | isDirectory => "Is a directory"

/-- Files, and the directory that relative paths start from. -/
structure FileTree where
  workingDirectory : List String
  files : Table (List String) Bytes

namespace FileTree

/-- Whether some components lead to a directory: the working directory, what holds it, or what
holds a file. -/
def isDirectoryAt (t : FileTree) (parts : List String) : Bool :=
  parts.isPrefixOf t.workingDirectory ||
    t.files.any fun f => parts.isPrefixOf f.1 && parts.length < f.1.length

/-- What some components lead to, none of which are two points. -/
def entryAt (t : FileTree) (parts : List String) : Option FileEntry :=
  match t.files.get? parts with
  | some bytes => some (.file bytes)
  | none => if t.isDirectoryAt parts then some .directory else none

/-- Follow components from a directory. -/
def follow (t : FileTree) (here : List String) : List String → Except ReadProblem FileEntry
  | [] =>
    match t.entryAt here with
    | some entry => .ok entry
    | none => .error .missing
  | part :: rest =>
    match t.entryAt here with
    | some .directory => follow t (if part = ".." then here.dropLast else here ++ [part]) rest
    | some (.file _) => .error .notDirectory
    | none => .error .missing

/-- What a path leads to. -/
def find (t : FileTree) (p : Path) : Except ReadProblem FileEntry :=
  if p.isAbsolute then t.follow [] p.parts else t.follow t.workingDirectory p.parts

/-- Whether a path leads to a file. -/
def isFile (t : FileTree) (p : Path) : Bool :=
  match t.find p with
  | .ok (.file _) => true
  | _ => false

/-- Whether a path leads to a directory. -/
def isDirectory (t : FileTree) (p : Path) : Bool :=
  match t.find p with
  | .ok .directory => true
  | _ => false

/-- Whether a path leads anywhere. -/
def exists_ (t : FileTree) (p : Path) : Bool :=
  match t.find p with
  | .ok _ => true
  | .error _ => false

/-- The bytes of the file at a path. -/
def read (t : FileTree) (p : Path) : Except ReadProblem Bytes :=
  match t.find p with
  | .ok (.file bytes) => .ok bytes
  | .ok .directory => .error .isDirectory
  | .error problem => .error problem

/-- The absolute path of a path, without points. -/
def absolute (t : FileTree) (p : Path) : Path :=
  ⟨"/", Path.normalParts (if p.isAbsolute then p.parts else t.workingDirectory ++ p.parts)⟩

end FileTree

end TypeGraft
