import TypeGraft.Syntax.Node

/-!
# Reading position and trivia

* `TypeGraft.Syntax.Cursor`: what is left to read of a script, and the byte offset at which
  it starts.
* `TypeGraft.Syntax.Trivia`: the blanks and comments in front of the next token.
  `Trivia.upToToken` passes over all of them, `Trivia.upToLineBreak` over those that stand
  on the line of the token just read.

A comment that is never closed leaves no trivia at all, so nothing can be read after it.
-/

namespace TypeGraft.Syntax

/-- A position in a script. -/
structure Cursor where
  /-- What is left to read. -/
  rest : List Glyph
  /-- The number of bytes before it. -/
  offset : Nat

namespace Cursor

/-- The position in front of a script. A byte order mark is passed over. -/
def start (source : Bytes) : Cursor :=
  match Glyph.ofBytes source with
  | g :: rest => if g.char = '\uFEFF' then ⟨rest, g.width⟩ else ⟨g :: rest, 0⟩
  | [] => ⟨[], 0⟩

/-- The position after `count` more glyphs. -/
def advance : (count : Nat) → Cursor → Cursor
  | 0, c => c
  | _ + 1, ⟨[], offset⟩ => ⟨[], offset⟩
  | count + 1, ⟨g :: rest, offset⟩ => advance count ⟨rest, offset + g.width⟩

/-- The bytes between two positions. -/
def spanTo (c d : Cursor) : Span := ⟨c.offset, d.offset⟩

end Cursor

/-- The characters that end a line. -/
def isLineBreak (c : Char) : Bool :=
  c == '\n' || c == '\r' || c == '\u2028' || c == '\u2029'

/-- The characters that may stand between tokens: the line breaks, tab, vertical tab, form
feed, the space separators, the zero width space, the word joiner and the byte order
mark. -/
def isScriptBlank (c : Char) : Bool :=
  isLineBreak c || c == ' ' || c == '\t' || c == '\x0b' || c == '\x0c' || c == '\u00a0' ||
    c == '\u1680' || ('\u2000' ≤ c && c ≤ '\u200b') || c == '\u202f' || c == '\u205f' ||
    c == '\u2060' || c == '\u3000' || c == '\ufeff'

/-- The blanks and comments between two tokens. -/
structure Trivia where
  /-- The comments, in order. -/
  comments : List Node
  /-- Whether a line ends among them. -/
  crossesLine : Bool
  /-- The position after the last comment. -/
  afterComments : Cursor
  /-- The position after all of them. -/
  cursor : Cursor

namespace Trivia

/-- Where a reading of trivia stands: between comments, behind a slash that stood at a
position, or in a comment that started at an offset; in a block comment, `star` says that
the last character may begin its closing mark. -/
inductive Mode where
  | blank
  | slash (c : Cursor)
  | line (start : Nat)
  | block (start : Nat) (star : Bool)

/-- The trivia seen so far, the latest comment first. -/
structure Seen where
  comments : List Node
  crossesLine : Bool
  afterComments : Cursor

/-- Add the comment that started at `start` and ends at `c`. -/
def Seen.close (seen : Seen) (start : Nat) (c : Cursor) : Seen :=
  { seen with
    comments := .mk .comment none ⟨start, c.offset⟩ [] :: seen.comments
    afterComments := c }

/-- A line ends. -/
def Seen.cross (seen : Seen) : Seen := { seen with crossesLine := true }

/-- What was seen up to `c`. -/
def Seen.stop (seen : Seen) (c : Cursor) : Option Trivia :=
  some ⟨seen.comments.reverse, seen.crossesLine, seen.afterComments, c⟩

/-- Read trivia from `offset` on. With `inLine`, stop in front of the first line break that
is not inside of a comment. -/
def read (inLine : Bool) : Mode → Seen → List Glyph → (offset : Nat) → Option Trivia
  | .blank, seen, [], offset => seen.stop ⟨[], offset⟩
  | .slash c, seen, [], _ => seen.stop c
  | .line start, seen, [], offset => (seen.close start ⟨[], offset⟩).stop ⟨[], offset⟩
  | .block _ _, _, [], _ => none
  | .blank, seen, g :: rest, offset =>
    let next := offset + g.width
    if isLineBreak g.char then
      if inLine then seen.stop ⟨g :: rest, offset⟩ else read inLine .blank seen.cross rest next
    else if isScriptBlank g.char then read inLine .blank seen rest next
    else if g.char = '/' then read inLine (.slash ⟨g :: rest, offset⟩) seen rest next
    else seen.stop ⟨g :: rest, offset⟩
  | .slash c, seen, g :: rest, offset =>
    let next := offset + g.width
    if g.char = '/' then read inLine (.line c.offset) seen rest next
    else if g.char = '*' then read inLine (.block c.offset false) seen rest next
    else seen.stop c
  | .line start, seen, g :: rest, offset =>
    if isLineBreak g.char then
      let seen := seen.close start ⟨g :: rest, offset⟩
      if inLine then seen.stop ⟨g :: rest, offset⟩
      else read inLine .blank seen.cross rest (offset + g.width)
    else read inLine (.line start) seen rest (offset + g.width)
  | .block start star, seen, g :: rest, offset =>
    let next := offset + g.width
    if star && g.char == '/' then read inLine .blank (seen.close start ⟨rest, next⟩) rest next
    else
      let seen := if isLineBreak g.char then seen.cross else seen
      read inLine (.block start (g.char == '*')) seen rest next

/-- All trivia in front of the next token. -/
def upToToken (c : Cursor) : Option Trivia := read false .blank ⟨[], false, c⟩ c.rest c.offset

/-- The trivia that stands on the line of the token just read. -/
def upToLineBreak (c : Cursor) : Option Trivia := read true .blank ⟨[], false, c⟩ c.rest c.offset

end Trivia

end TypeGraft.Syntax
