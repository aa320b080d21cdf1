/-!
# Paths

A `TypeGraft.Path` is a list of components below a root or, if it is relative, below the
working directory. Reading a path drops empty components and single points; two points
stay, since what they lead to depends on the files.
-/

namespace TypeGraft

/-- A path in a tree of files. -/
structure Path where
  /-- One slash for an absolute path, or two where exactly two were written; none for a relative
  one. -/
  root : String
  parts : List String
deriving DecidableEq, Repr

namespace Path

/-- The texts between slashes. -/
def splitSlashes : List Char → List (List Char)
  | [] => [[]]
  | c :: rest =>
    match splitSlashes rest with
    | [] => [[c]]
    | part :: parts => if c = '/' then [] :: part :: parts else (c :: part) :: parts

/-- The components of a text. -/
def partsOf (text : String) : List String :=
  ((splitSlashes text.toList).map String.ofList).filter fun p => p != "" && p != "."

/-- The root that a text starts with. -/
def rootOf (text : String) : String :=
  match text.toList with
  | '/' :: '/' :: '/' :: _ => "/"
  | '/' :: '/' :: _ => "//"
  | '/' :: _ => "/"
  | _ => ""

/-- Read a path. -/
def ofString (text : String) : Path := ⟨rootOf text, partsOf text⟩

/-- Write a path; the working directory is a point. -/
def toString (p : Path) : String :=
  if p.root = "" ∧ p.parts = [] then "." else p.root ++ String.intercalate "/" p.parts

/-- Whether a path starts at a root. -/
def isAbsolute (p : Path) : Bool := p.root != ""

/-- Go on from a path. An absolute text starts anew. -/
def join (p : Path) (text : String) : Path :=
  let q := ofString text
  if q.isAbsolute then q else { p with parts := p.parts ++ q.parts }

/-- The path without its last component. -/
def parent (p : Path) : Path := { p with parts := p.parts.dropLast }

/-- The path with all paths above it, the longest first. -/
def upwards (p : Path) : List Path :=
  (List.range (p.parts.length + 1)).map fun n =>
    { p with parts := p.parts.take (p.parts.length - n) }

/-- The last component. -/
def name (p : Path) : String := (p.parts.getLast?).getD ""

/-- The path with another last component. -/
def withName (p : Path) (name : String) : Path := { p with parts := p.parts.dropLast ++ [name] }

/-- What comes behind the last point of a name, with the point; nothing if the point stands at
either end. -/
def suffixOf (name : String) : String :=
  let chars := name.toList
  let tail := (chars.reverse.takeWhile (· != '.')).reverse
  if tail.length + 1 < chars.length && !tail.isEmpty then String.ofList ('.' :: tail) else ""

/-- The part of a name before its suffix. -/
def stemOf (name : String) : String :=
  String.ofList (name.toList.take (name.length - (suffixOf name).length))

/-- Take two points to mean the directory above, whatever is there. -/
def normalParts (parts : List String) : List String :=
  (parts.foldl (fun above p => if p = ".." then above.drop 1 else p :: above) []).reverse

end Path

end TypeGraft
