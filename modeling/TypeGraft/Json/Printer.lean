import TypeGraft.Json.Value
import TypeGraft.Text.Quoted

/-!
# Writing JSON

`TypeGraft.Json.render` writes a value over several lines: two spaces for each level, the
members of an object in the order of their names, and every character outside of printable
ASCII escaped. Empty arrays and objects stay on one line.
-/

namespace TypeGraft.Json

open TypeGraft.Text (hex)

/-- The code units of 16 bits that write a character. -/
def units16 (c : Char) : List Nat :=
  let n := c.toNat
  if n < 0x10000 then [n] else [0xD800 + (n - 0x10000) / 0x400, 0xDC00 + (n - 0x10000) % 0x400]

/-- A character in a string. -/
def stringChar (c : Char) : List Char :=
  match c with
  | '"' => ['\\', '"']
  | '\\' => ['\\', '\\']
  | '\n' => ['\\', 'n']
  | '\r' => ['\\', 'r']
  | '\t' => ['\\', 't']
  | '\x08' => ['\\', 'b']
  | '\x0c' => ['\\', 'f']
  | c =>
    if ' ' ≤ c && c ≤ '~' then [c]
    else (units16 c).flatMap fun unit => ['\\', 'u'] ++ hex 4 unit

/-- A string in its quotes. -/
def stringText (s : String) : String :=
  String.ofList ('"' :: s.toList.flatMap stringChar ++ ['"'])

/-- Whether a name comes before another one, or is the same: by code points. -/
def nameLe (a b : String) : Bool := !(b < a)

/-- A new line with the space in front of a level. -/
def newLine (level : Nat) : String := "\n" ++ String.ofList (List.replicate (2 * level) ' ')

/-- A scalar value. -/
def scalarText : Json → String
  | null => "null"
  | bool true => "true"
  | bool false => "false"
  | integer n => toString n
  | real x => x.text
  | string s => stringText s
  | _ => ""

/-- Items between brackets, each on a line of its own. -/
def bracketed (opening closing : String) (level : Nat) (items : List String) : String :=
  match items with
  | [] => opening ++ closing
  | items => opening ++ newLine (level + 1) ++
      String.intercalate ("," ++ newLine (level + 1)) items ++ newLine level ++ closing

mutual

/-- Write a value that stands at a level. -/
def renderAt (level : Nat) : Json → String
  | array items => bracketed "[" "]" level (renderItems (level + 1) items)
  | object members =>
    let written := (renderMembers (level + 1) members).mergeSort fun a b => nameLe a.1 b.1
    bracketed "\x7b" "\x7d" level (written.map fun m => stringText m.1 ++ ": " ++ m.2)
  | json => scalarText json

/-- Write the items of an array. -/
def renderItems (level : Nat) : List Json → List String
  | [] => []
  | item :: rest => renderAt level item :: renderItems level rest

/-- Write the values of the members of an object, each with its name. -/
def renderMembers (level : Nat) : List (String × Json) → List (String × String)
  | [] => []
  | (name, item) :: rest => (name, renderAt level item) :: renderMembers level rest

end

/-- Write a value. -/
def render (json : Json) : String := renderAt 0 json

end TypeGraft.Json
