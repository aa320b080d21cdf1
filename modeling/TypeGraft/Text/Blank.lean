import TypeGraft.Text.CodePoints

/-!
# Blanks

The characters that count as white space in text: those that Unicode gives the property of
white space or the bidirectional class of a separator, the four information separators
among them.
-/

namespace TypeGraft.Text

/-- The blanks. -/
def blanks : CodePoints :=
  [(0x9, 0xd), (0x1c, 0x20), (0x85, 0x85), (0xa0, 0xa0), (0x1680, 0x1680), (0x2000, 0x200a),
   (0x2028, 0x2029), (0x202f, 0x202f), (0x205f, 0x205f), (0x3000, 0x3000)]

/-- Whether a character is blank. -/
def isBlank (c : Char) : Bool := blanks.contains c

/-- Drop blanks from both ends. -/
def trim (text : List Char) : List Char :=
  (((text.dropWhile isBlank).reverse).dropWhile isBlank).reverse

end TypeGraft.Text
