import TypeGraft.Project
import TypeGraft.Project.Root
import TypeGraft.Json.Value

/-!
# The settings of a project

`TypeGraft.Settings` are what the settings file of a project may state. `Settings.ofJson` takes
them from a JSON value, or says what is wrong with it; of several problems it names the one
that comes first in `TypeGraft.SettingsProblem`.
-/

namespace TypeGraft

/-- What a settings file states, with the usual values for what it leaves out. -/
structure Settings where
  /-- What the aliases look for, each with its replacement. -/
  aliases : List (String × String)
  macros : List String
  cleaning : Cleaning
  /-- The path of the file that holds the options of the compiler. -/
  compilerOptions : String
deriving Repr

/-- What may be wrong with a settings file. -/
inductive SettingsProblem where
  | notObject
  | aliases
  | macros
  | cleaning
  | unknownCleaning (names : List String)
  | compilerOptions
deriving DecidableEq, Repr

/-- The words for a problem. -/
def SettingsProblem.describe : SettingsProblem → String
  | notObject => "config must be a JSON object"
  | aliases => "'aliases' must map strings to strings"
  | macros => "'macros' must be a list of names"
  | cleaning => "'clean' must map 'newline' / 'interface' to booleans"
  | unknownCleaning names => "unknown 'clean' option(s): " ++ String.intercalate ", " names
  | compilerOptions => "'tsconfig' must be a path"

namespace Settings

/-- The settings where nothing is said. -/
def standard : Settings := ⟨[], Request.standardMacros, .none, compilerOptionsName⟩

/-- The text in a value. -/
def text? : Json → Option String
  | .string text => some text
  | _ => none

/-- The truth value in a value. -/
def truth? : Json → Option Bool
  | .bool value => some value
  | _ => none

/-- The members of an object, if each holds what `read` takes from it. -/
def members? {α : Type} (read : Json → Option α) : Json → Option (List (String × α))
  | .object members => members.mapM fun m => (read m.2).map fun value => (m.1, value)
  | _ => none

/-- The items of an array, if all are texts. -/
def texts? : Json → Option (List String)
  | .array items => items.mapM text?
  | _ => none

/-- What a member of an object holds; `otherwise` if there is no such member, and a problem if
`read` takes nothing from it. -/
def member {α : Type} (json : Json) (name : String) (read : Json → Option α) (otherwise : α)
    (problem : SettingsProblem) : Except SettingsProblem α :=
  match json.get? name with
  | none => .ok otherwise
  | some value =>
    match read value with
    | some value => .ok value
    | none => .error problem

/-- The choice of what is cleaned away from the members that state it. -/
def cleaningOf (members : List (String × Bool)) : Except SettingsProblem Cleaning :=
  let known := ["newline", "interface"]
  let value (name : String) : Bool := (Table.get? members name).getD false
  match (members.map (·.1)).filter fun name => !known.contains name with
  | [] => .ok ⟨value "newline", value "interface"⟩
  | unknown => .error (.unknownCleaning (unknown.mergeSort fun a b => !(b < a)))

/-- The settings that a value states. -/
def ofJson (json : Json) : Except SettingsProblem Settings :=
  match json with
  | .object _ => do
    let aliases ← member json "aliases" (members? text?) standard.aliases .aliases
    let macros ← member json "macros" texts? standard.macros .macros
    let members ← member json "clean" (members? truth?) [] .cleaning
    let cleaning ← cleaningOf members
    let options ← member json "tsconfig" text? standard.compilerOptions .compilerOptions
    .ok ⟨aliases, macros, cleaning, options⟩
  | _ => .error .notObject

end Settings

end TypeGraft
