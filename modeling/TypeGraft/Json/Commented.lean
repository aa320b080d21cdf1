import TypeGraft.Text.Blank

/-!
# JSON with comments

A settings file may hold comments, and a comma behind the last item of an array or an object.
`TypeGraft.Json.withoutComments` takes both away and leaves the JSON text.

**What counts as a comment.** Two slashes with all that follows on the line, and what stands
between `/*` and the next `*/`. A comment that does not end is left alone. Inside of a string
there are no comments; a quote that opens a string without an end is a character like any
other.

**Which commas go.** A comma goes if only blanks stand between it and a closing bracket or
brace. What stands between them is looked at as it is written, so a comment there keeps the
comma.
-/

namespace TypeGraft.Json

open Text (isBlank)

/-- What the next character of a text with comments is part of. -/
inductive Surroundings where
  | content
  | string
  /-- A string, behind a backslash. -/
  | escape
  | lineComment
  /-- The second character of the mark that opens a block comment. -/
  | opening
  | blockComment
  /-- The second character of the mark that closes a block comment. -/
  | closing
deriving DecidableEq, Repr

/-- Whether a string ends, of which the rest of the text begins with the inside. -/
def stringEnds : List Char → Bool
  | [] => false
  | '"' :: _ => true
  | '\\' :: _ :: rest => stringEnds rest
  | _ :: rest => stringEnds rest

/-- Whether a block comment ends, of which the rest of the text begins with the inside. -/
def commentEnds : List Char → Bool
  | [] => false
  | '*' :: '/' :: _ => true
  | _ :: rest => commentEnds rest

/-- Whether a text goes on with the star and the inside of a block comment that ends. -/
def opensComment : List Char → Bool
  | '*' :: rest => commentEnds rest
  | _ => false

/-- Whether a bracket or a brace is closed next. -/
def closesNext (text : List Char) : Bool :=
  match text.dropWhile isBlank with
  | c :: _ => c == ']' || c == '\x7d'
  | [] => false

/-- Take comments and last commas out of a text, whose first character is part of `around`. -/
def withoutCommentsIn : (around : Surroundings) → List Char → List Char
  | _, [] => []
  | .content, c :: rest =>
    if c == '"' && stringEnds rest then c :: withoutCommentsIn .string rest
    else if c == '/' && rest.head? == some '/' then withoutCommentsIn .lineComment rest
    else if c == '/' && opensComment rest then withoutCommentsIn .opening rest
    else if c == ',' && closesNext rest then withoutCommentsIn .content rest
    else c :: withoutCommentsIn .content rest
  | .string, c :: rest =>
    c :: withoutCommentsIn
      (if c == '"' then .content else if c == '\\' then .escape else .string) rest
  | .escape, c :: rest => c :: withoutCommentsIn .string rest
  | .lineComment, c :: rest =>
    if c == '\n' then c :: withoutCommentsIn .content rest
    else withoutCommentsIn .lineComment rest
  | .opening, _ :: rest => withoutCommentsIn .blockComment rest
  | .blockComment, c :: rest =>
    withoutCommentsIn
      (if c == '*' && rest.head? == some '/' then .closing else .blockComment) rest
  | .closing, _ :: rest => withoutCommentsIn .content rest

/-- Take comments and last commas out of a text. -/
def withoutComments (text : String) : String :=
  String.ofList (withoutCommentsIn .content text.toList)

end TypeGraft.Json
