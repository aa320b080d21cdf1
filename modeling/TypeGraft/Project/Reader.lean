import TypeGraft.Project.Settings
import TypeGraft.Event
import TypeGraft.Json.Commented
import TypeGraft.Json.Reader

/-!
# Reading a project

`TypeGraft.FileTree.project` finds the project that a path belongs to and reads what is
stated about it.

**Aliases.** Those of the settings come first (`TypeGraft.FileTree.aliasRule`). What an alias
looks for is a pattern if it stands between slashes. After them come the paths in the options
of the compiler (`TypeGraft.pathRule`), of which only the first target counts, and only those
that are a mere name or a whole directory.
-/

namespace TypeGraft

/-! ### Aliases -/

/-- Whether a text starts with a digit. -/
def startsWithDigit (text : List Char) : Bool := text.head?.any Text.isDigit

/-- Write the groups of a replacement, which are a dollar sign and a number, as in templates.
`inNumber` says whether the text starts inside of a number. -/
def templateFrom : (inNumber : Bool) → List Char → List Char
  | _, [] => []
  | false, c :: rest =>
    if c == '$' && startsWithDigit rest then "\\g<".toList ++ templateFrom true rest
    else c :: templateFrom false rest
  | true, c :: rest =>
    if startsWithDigit rest then c :: templateFrom true rest
    else c :: '>' :: templateFrom false rest

/-- The pattern between slashes, if a text is one. -/
def betweenSlashes? (text : String) : Option String :=
  let chars := text.toList
  if 2 < chars.length && chars.head? == some '/' && chars.getLast? == some '/' then
    some (String.ofList (chars.dropLast.drop 1))
  else none

/-- The absolute path that a text stands for, seen from a directory. No path holds a null
character. -/
def FileTree.placeFrom (t : FileTree) (base : Path) (text : String) : Except Failure Path :=
  if text.contains '\u0000' then .error .nullInPath else .ok (t.absolute (base.join text))

/-- The alias that settings state for a project. A replacement that starts with a point is a
path in the project. -/
def FileTree.aliasRule (t : FileTree) (root : Path) (find replacement : String) :
    Except Failure AliasRule :=
  match betweenSlashes? find with
  | some source =>
    match Pattern.ofString? source with
    | some pattern =>
      .ok ⟨.pattern pattern, String.ofList (templateFrom false replacement.toList)⟩
    | none => .error .badPattern
  | none =>
    if replacement.toList.head? == some '.' then
      (t.placeFrom root replacement).map fun path => ⟨.text find, path.toString⟩
    else .ok ⟨.text find, replacement⟩

/-- What comes before a slash and a star at the end of a text. -/
def directoryPattern? (text : String) : Option String :=
  if "/*".toList.isSuffixOf text.toList then
    some (String.ofList (text.toList.take (text.length - 2)))
  else none

/-- The alias for one of the paths in the file `origin`, whose targets are seen from `base`, or
the reason why there is none. -/
def pathRule (origin base : Path) (pattern : String) (targets : Json) : Event ⊕ AliasRule :=
  match targets with
  | .array (.string target :: _) =>
    match directoryPattern? pattern, directoryPattern? target with
    | some front, some directory => .inr ⟨.text front, (base.join directory).toString⟩
    | _, _ =>
      if pattern.contains '*' || target.contains '*' then
        .inl (.pathsPatternUnsupported origin.toString pattern)
      else .inr ⟨.text pattern, (base.join target).toString⟩
  | _ => .inl (.pathsEntrySkipped origin.toString pattern)

/-! ### Files -/

namespace FileTree

/-- The text of a file that states something about a project. -/
def settingsText (t : FileTree) (file : Path) : Except Failure String :=
  match t.read file with
  | .error problem =>
    .error (.fault (.configuration s!"Cannot read {file.toString}: {problem.describe}"))
  | .ok bytes =>
    match bytes.toString? with
    | none => .error .undecodable
    | some text => .ok (String.ofList (unifyLineBreaks text.toList))

/-- The value in such a file, whose text is first turned into JSON. -/
def jsonIn (t : FileTree) (file : Path) (toJson : String → String) : Except Failure Json :=
  match t.settingsText file with
  | .error failure => .error failure
  | .ok text =>
    match Json.parse (toJson text) with
    | .ok json => .ok json
    | .error problem =>
      .error (.fault (.configuration s!"Invalid JSON in {file.toString}: {problem.message}"))

/-- The settings in a file. -/
def settingsIn (t : FileTree) (file : Path) : Except Failure Settings :=
  match t.jsonIn file id with
  | .error failure => .error failure
  | .ok json =>
    match Settings.ofJson json with
    | .ok settings => .ok settings
    | .error problem =>
      .error (.fault (.configuration s!"{file.toString}: {problem.describe}"))

/-- The directory that the paths in the options of a compiler are seen from. -/
def pathBase (t : FileTree) (file : Path) (options : Json) : Except Failure Path :=
  match (options.get? "baseUrl").getD (.string ".") with
  | .string text => t.placeFrom file.parent text
  | _ => .error .baseNotText

/-- The paths in the options of a compiler. -/
def statedPaths (options : Json) : Except Failure (List (String × Json)) :=
  match options.get? "paths" with
  | none => .ok []
  | some (.object members) => .ok members
  | some json => if json.isTruthy then .error .pathsNotObject else .ok []

/-- The aliases for the paths in a file with options of the compiler. -/
def pathRulesIn (t : FileTree) (file : Path) : Except Failure (List (Event ⊕ AliasRule)) := do
  let json ← t.jsonIn file Json.withoutComments
  match json.get? "compilerOptions" with
  | some (.object members) =>
    let options := Json.object members
    let base ← t.pathBase file options
    let paths ← statedPaths options
    .ok (paths.map fun entry => pathRule file base entry.1 entry.2)
  | _ => .ok []

/-- The project at a root, and what happened while it was read. -/
def projectAt (t : FileTree) (root : Path) : Except Failure (Project × List Event) := do
  let file := root.join settingsName
  let settings ← if t.exists_ file then t.settingsIn file else .ok Settings.standard
  let stated ← settings.aliases.mapM fun entry => t.aliasRule root entry.1 entry.2
  let options := root.join settings.compilerOptions
  let paths ← if t.exists_ options then t.pathRulesIn options else .ok []
  .ok (⟨some root, stated ++ paths.filterMap Sum.getRight?, settings.macros, settings.cleaning⟩,
    paths.filterMap Sum.getLeft?)

/-- The project that a path belongs to. -/
def project (t : FileTree) (start : Path) : Except Failure (Project × List Event) :=
  match t.projectRoot? start with
  | none => .ok (.standard, [])
  | some root => t.projectAt root

end FileTree

end TypeGraft
