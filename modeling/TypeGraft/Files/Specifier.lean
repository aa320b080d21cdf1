import TypeGraft.Files.Tree
import TypeGraft.Files.Alias
import TypeGraft.Json.Reader
import TypeGraft.Event

/-!
# From specifiers to files

`TypeGraft.FileTree.locate` finds the file that an import leads to. The first alias that applies
gives the target. An absolute target is a place itself, one that starts with a point is a place
seen from the importing file, and any other one is looked for among the installed packages.

**Places.** At a place stands the first file of `TypeGraft.Path.besides`: the place itself if it
is named like a script, the place with a suffix of a script, or the script behind a compiled file.
If there is none, and the place is a directory, its index stands for it.

**Packages.** From the directory of the importing file upwards, the package is looked for in
each `node_modules`, and then among the types that are installed apart. A package may say where
its types are; otherwise it is a place like any other.
-/

namespace TypeGraft

namespace Path

/-- The suffixes of scripts that are added to a place. -/
def scriptSuffixes : List String := [".ts", ".d.ts", ".tsx"]

/-- The suffixes of the scripts that a compiled file with a suffix may come from. -/
def sourceSuffixes (suffix : String) : List String :=
  if suffix = ".js" then [".ts", ".d.ts"]
  else if suffix = ".mjs" then [".mts", ".ts", ".d.ts"]
  else if suffix = ".cjs" then [".cts", ".ts", ".d.ts"]
  else []

/-- Whether a file name is that of a script. -/
def isScriptName (name : String) : Bool :=
  (scriptSuffixes ++ [".mts", ".cts"]).any fun s => s.toList.isSuffixOf name.toList

/-- The files that may stand at a place beside it, the first choice first: the place itself if it
is named like a script, the place with a suffix of a script, and the script behind a compiled
file. -/
def besides (base : Path) : List Path :=
  (if isScriptName base.name then [base] else []) ++
    scriptSuffixes.map (fun s => base.withName (base.name ++ s)) ++
    (sourceSuffixes (suffixOf base.name)).map (fun s => base.withName (stemOf base.name ++ s))

/-- The files that may stand at a place inside of it. -/
def indices (base : Path) : List Path := ["index.ts", "index.d.ts"].map base.join

end Path

namespace FileTree

/-- What a search for a file comes to, and what happened on the way. -/
abbrev Search := Except Failure (Option Path) × List Event

/-- Search on where nothing was found. -/
def orSearch (first : Search) (second : Unit → Search) : Search :=
  match first with
  | (.ok none, events) =>
    let (found, more) := second ()
    (found, events ++ more)
  | found => found

/-- The first file that stands at a place. There is no looking beside a place without a name. -/
def scriptAt (t : FileTree) (base : Path) : Except Failure (Option Path) :=
  if base.name = "" then .error .namelessPath
  else .ok ((base.besides.find? t.isFile).or
    (if t.isDirectory base then base.indices.find? t.isFile else none))

/-- The places that the description of a package names for its types. -/
def statedTypes (t : FileTree) (package : Path) : List String × List Event :=
  let manifest := package.join "package.json"
  match t.read manifest with
  | .error _ => ([], [])
  | .ok bytes =>
    match bytes.toString? with
    | none => ([], [.manifestIgnored manifest.toString ((Bytes.decodeProblem? bytes).getD "")])
    | some text =>
      match Json.parse (String.ofList (unifyLineBreaks text.toList)) with
      | .error fault => ([], [.manifestIgnored manifest.toString fault.message])
      | .ok json =>
        (["types", "typings"].filterMap fun name =>
          match json.get? name with
          | some (.string entry) => some entry
          | _ => none, [])

/-- The first file that stands at one of some places. -/
def scriptAtAny (t : FileTree) : List Path → Except Failure (Option Path)
  | [] => .ok none
  | base :: rest =>
    match t.scriptAt base with
    | .ok none => scriptAtAny t rest
    | found => found

/-- The types of the package in a directory. -/
def typesOfPackage (t : FileTree) (package : Path) : Search :=
  let (entries, events) := t.statedTypes package
  (t.scriptAtAny (entries.map package.join ++ [package]), events)

/-- The types of a package that is looked for in one directory. -/
def searchIn (t : FileTree) (specifier : String) (directory : Path) : Search :=
  let modules := directory.join "node_modules"
  let package := modules.join specifier
  let typed := (modules.join "@types").join specifier
  let nothing : Search := (.ok none, [])
  orSearch (if t.isDirectory package then t.typesOfPackage package else nothing) fun _ =>
    orSearch (t.scriptAt package, []) fun _ =>
      if t.isDirectory typed then t.typesOfPackage typed else nothing

/-- The types of a package that is looked for in some directories. -/
def searchAll (t : FileTree) (specifier : String) : List Path → Search
  | [] => (.ok none, [])
  | directory :: rest =>
    orSearch (t.searchIn specifier directory) fun _ => searchAll t specifier rest

/-- Whether a specifier names a package. -/
def namesPackage (specifier : String) : Bool :=
  match specifier.toList with
  | c :: _ => c != '.' && c != '/'
  | [] => true

/-- The file that stands for a target, seen from a directory. -/
def searchTarget (t : FileTree) (target : String) (directory : Path) : Search :=
  if (Path.ofString target).isAbsolute then (t.scriptAt (Path.ofString target), [])
  else if namesPackage target then t.searchAll target directory.upwards
  else (t.scriptAt (directory.join target), [])

/-- The absolute path of the file that a specifier in the file `origin` leads to. -/
def locate (t : FileTree) (rules : List AliasRule) (specifier origin : String) :
    Except Failure (Option String) × List Event :=
  match AliasRule.applyFirst rules specifier with
  | .error failure => (.error failure, [])
  | .ok target =>
    match t.searchTarget target (Path.ofString origin).parent with
    | (.error failure, events) => (.error failure, events)
    | (.ok none, events) => (.ok none, events ++ [.unresolvable specifier origin])
    | (.ok (some path), events) => (.ok (some (t.absolute path).toString), events)

end FileTree

end TypeGraft
