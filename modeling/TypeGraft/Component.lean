import TypeGraft.Text.Blank
import TypeGraft.Text.Word
import TypeGraft.Text.Lowercase
import TypeGraft.Table

/-!
# Components

A component is a text with elements in it. `TypeGraft.ScriptElement.all` finds its
`script` elements, and `TypeGraft.ScriptElement.setup?` the one that holds the setup script in
the typed language. Positions count characters.

**Elements.** An element reaches from `<script` and its attributes, up to the first `>`, to
the first closing tag. Names of tags are matched in any case. **Attributes** are read as names
with or without a value; what is neither is passed over. A name counts in lower case, and only
where it stands first.
-/

namespace TypeGraft

open Text

/-- A `script` element of a component. -/
structure ScriptElement where
  content : String
  /-- The position at which the content starts. -/
  start : Nat
  /-- The position at which it stops. -/
  stop : Nat
  attributes : Table String String
deriving DecidableEq, Repr

namespace ScriptElement

/-- The language that is stated, and plain script where none is. -/
def language (e : ScriptElement) : String := (e.attributes.get? "lang").getD "js"

/-- Whether the element holds a setup script. -/
def isSetup (e : ScriptElement) : Bool := e.attributes.has "setup"

/-- The number of lines before the content. -/
def linesBefore (e : ScriptElement) (code : String) : Nat :=
  (code.toList.take e.start).count '\n'

/-! ### Attributes -/

/-- Whether a character may stand in the name of an attribute. -/
def isNameChar (c : Char) : Bool :=
  !(isBlank c || ['"', '\'', '<', '>', '/', '='].contains c)

/-- Whether a character may stand in a value without quotes. -/
def isValueChar (c : Char) : Bool :=
  !(isBlank c || ['"', '\'', '=', '<', '>', '`'].contains c)

/-- The value behind a name: an equals sign, and text in quotes or a run of value
characters. -/
def value? (text : List Char) : Option (List Char × List Char) :=
  match text.dropWhile isBlank with
  | '=' :: rest =>
    match rest.dropWhile isBlank with
    | [] => none
    | c :: rest =>
      if c == '"' || c == '\'' then
        match rest.dropWhile (· != c) with
        | _ :: after => some (rest.takeWhile (· != c), after)
        | [] => none
      else if isValueChar c then
        some (c :: rest.takeWhile isValueChar, rest.dropWhile isValueChar)
      else none
  | _ => none

/-- The attributes in a text, in at most `steps` steps: each passes over a character or reads
an attribute. -/
def readAttributes : (steps : Nat) → Table String String → List Char → Table String String
  | 0, found, _ => found
  | _ + 1, found, [] => found
  | steps + 1, found, c :: rest =>
    if isNameChar c then
      let name := lowercase (String.ofList (c :: rest.takeWhile isNameChar))
      let after := rest.dropWhile isNameChar
      let (value, after) := (value? after).getD ([], after)
      let found := if found.has name then found else found.put name (String.ofList value)
      readAttributes steps found after
    else readAttributes steps found rest

/-- The attributes in a text. -/
def attributesOf (text : List Char) : Table String String :=
  readAttributes text.length [] text

/-! ### Elements -/

/-- The letters that are taken for a small letter in the name of a tag. -/
def variants (c : Char) : List Char :=
  if c = 's' then ['s', 'S', '\u017f']
  else if c = 'i' then ['i', 'I', '\u0130', '\u0131']
  else [c, c.toUpper]

/-- What comes after `word` in a text that starts with it, in any case. -/
def afterWord? : (word : List Char) → List Char → Option (List Char)
  | [], text => some text
  | _ :: _, [] => none
  | w :: word, c :: text => if (variants w).contains c then afterWord? word text else none

/-- What comes after a closing tag at the front. -/
def afterClosing? (text : List Char) : Option (List Char) :=
  match afterWord? "</script".toList text with
  | some rest =>
    match rest.dropWhile isBlank with
    | '>' :: after => some after
    | _ => none
  | none => none

/-- The text up to the first closing tag, and what comes after the tag. -/
def upToClosing? : List Char → Option (List Char × List Char)
  | [] => none
  | c :: rest =>
    match afterClosing? (c :: rest) with
    | some after => some ([], after)
    | none => (upToClosing? rest).map fun (content, after) => (c :: content, after)

/-- The element at the front of a text, which is at `position`, and what comes after it. -/
def first? (position : Nat) (text : List Char) : Option (ScriptElement × List Char) := do
  let tag ← afterWord? "<script".toList text
  guard (!((tag.head?.map isWord).getD false))
  let rest := tag.dropWhile (· != '>')
  guard (!rest.isEmpty)
  let body := rest.drop 1
  let (content, after) ← upToClosing? body
  let start := position + (text.length - body.length)
  some (⟨String.ofList content, start, start + content.length,
    attributesOf (tag.takeWhile (· != '>'))⟩, after)

/-- The elements of a text that is at `position`, in at most `steps` steps. -/
def allFrom : (steps : Nat) → (position : Nat) → List Char → List ScriptElement
  | 0, _, _ => []
  | _ + 1, _, [] => []
  | steps + 1, position, c :: rest =>
    match first? position (c :: rest) with
    | some (element, after) =>
      element :: allFrom steps (position + ((c :: rest).length - after.length)) after
    | none => allFrom steps (position + 1) rest

/-- The `script` elements of a component, in order. -/
def all (code : String) : List ScriptElement :=
  allFrom code.toList.length 0 code.toList

/-- The setup script of a component in the typed language. -/
def setup? (code : String) : Option ScriptElement :=
  (all code).find? fun e => e.isSetup && e.language == "ts"

end ScriptElement

end TypeGraft
