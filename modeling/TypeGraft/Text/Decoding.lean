import TypeGraft.Text.Utf8
import TypeGraft.Text.Quoted

/-!
# Reading text files

* `TypeGraft.Bytes.decodeProblem?` says where bytes are not well-formed UTF-8, and why.
* `TypeGraft.unifyLineBreaks` turns every line break of a text into a line feed.
-/

namespace TypeGraft

namespace Bytes

/-- The glyphs of a text with the positions at which they start. -/
def positioned : (position : Nat) → List Glyph → List (Nat × Glyph)
  | _, [] => []
  | position, g :: rest => (position, g) :: positioned (position + g.width) rest

/-- Why bytes at the front are no character: the first one cannot come first, the text stops
too early, or a byte cannot come next. -/
def decodeReason (bytes : Bytes) (width : Nat) : String :=
  match bytes with
  | b :: _ =>
    if (Glyph.Lead.of? b.toNat).isNone then "invalid start byte"
    else if bytes.length ≤ width then "unexpected end of data"
    else "invalid continuation byte"
  | [] => ""

/-- What is said of bytes that are not well-formed. -/
def decodeProblem? (bytes : Bytes) : Option String :=
  match (positioned 0 (Glyph.ofBytes bytes)).find? fun g => g.2.scalar.isNone with
  | none => none
  | some (position, g) =>
    let rest := bytes.drop position
    let what :=
      if g.width == 1 then
        let byte := (rest.head?.map UInt8.toNat).getD 0
        s!"byte 0x{String.ofList (Text.hex 2 byte)} in position {position}"
      else s!"bytes in position {position}-{position + g.width - 1}"
    some s!"'utf-8' codec can't decode {what}: {decodeReason rest g.width}"

end Bytes

/-- Turn a carriage return, alone or with a line feed behind it, into a line feed. -/
def unifyLineBreaks : List Char → List Char
  | [] => []
  | '\r' :: '\n' :: rest => '\n' :: unifyLineBreaks rest
  | c :: rest => (if c = '\r' then '\n' else c) :: unifyLineBreaks rest

end TypeGraft
