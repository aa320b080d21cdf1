/-!
# Text as bytes

Positions in a script count UTF-8 bytes, so a script is kept as its list of
bytes and read one encoded character at a time.

* `TypeGraft.Bytes`: the bytes of a text, with `Bytes.ofString` writing one.
* `TypeGraft.Glyph`: one step of the reading, a character and the number of
  bytes it takes; `Glyph.ofBytes` reads a whole text.
* `TypeGraft.Bytes.toString?` reads well-formed bytes only, and
  `TypeGraft.Bytes.toStringLossy` reads any bytes.

**Ill-formed bytes.** What does not decode is cut into pieces, each the longest
beginning of a well-formed sequence that stands there, or one byte where there is
none. Such a piece is one glyph without a scalar value, and shows as U+FFFD.
-/

namespace TypeGraft

/-- The bytes of a text. -/
abbrev Bytes := List UInt8

/-- The UTF-8 encoding of a text. -/
def Bytes.ofString (text : String) : Bytes :=
  text.toList.flatMap String.utf8EncodeChar

/-- One encoded character, or a piece of ill-formed bytes. -/
structure Glyph where
  /-- The character that the bytes encode, if they encode one. -/
  scalar : Option Char
  /-- The number of bytes. -/
  width : Nat
deriving DecidableEq, Repr

namespace Glyph

/-- The character to show, the replacement character for ill-formed bytes. -/
def char (g : Glyph) : Char := g.scalar.getD '\uFFFD'

/-- What the first byte of a sequence of several bytes promises: its own share of
the code point, the number of bytes that follow, and the range in which the first
of those has to lie. -/
structure Lead where
  share : Nat
  following : Nat
  low : Nat
  high : Nat

/-- The sequences of several bytes by their first byte. The narrower ranges after
`E0`, `ED`, `F0` and `F4` leave out overlong forms, surrogates and what lies above
the last code point. -/
def Lead.of? (byte : Nat) : Option Lead :=
  if byte < 0xC2 then none
  else if byte < 0xE0 then some ⟨byte - 0xC0, 1, 0x80, 0xBF⟩
  else if byte = 0xE0 then some ⟨0, 2, 0xA0, 0xBF⟩
  else if byte = 0xED then some ⟨0xD, 2, 0x80, 0x9F⟩
  else if byte < 0xF0 then some ⟨byte - 0xE0, 2, 0x80, 0xBF⟩
  else if byte = 0xF0 then some ⟨0, 3, 0x90, 0xBF⟩
  else if byte < 0xF4 then some ⟨byte - 0xF0, 3, 0x80, 0xBF⟩
  else if byte = 0xF4 then some ⟨4, 3, 0x80, 0x8F⟩
  else none

/-- Read the remaining `following` bytes of a sequence of which `width` bytes, worth
`value`, are read; the next one has to lie between `low` and `high`. -/
def continued : (following : Nat) → (value width low high : Nat) → Bytes → Glyph
  | 0, value, width, _, _, _ => ⟨some (Char.ofNat value), width⟩
  | _ + 1, _, width, _, _, [] => ⟨none, width⟩
  | following + 1, value, width, low, high, b :: rest =>
    if low ≤ b.toNat ∧ b.toNat ≤ high then
      continued following (value * 64 + (b.toNat - 0x80)) (width + 1) 0x80 0xBF rest
    else ⟨none, width⟩

/-- The glyph at the front of `b :: rest`. -/
def first (b : UInt8) (rest : Bytes) : Glyph :=
  if b.toNat < 0x80 then ⟨some (Char.ofNat b.toNat), 1⟩
  else match Lead.of? b.toNat with
    | none => ⟨none, 1⟩
    | some lead => continued lead.following lead.share 1 lead.low lead.high rest

/-- Read a text, of whose first glyph `skip` bytes are still to be passed over. -/
def read : (skip : Nat) → Bytes → List Glyph
  | _, [] => []
  | skip + 1, _ :: rest => read skip rest
  | 0, b :: rest =>
    let g := first b rest
    g :: read (g.width - 1) rest

/-- The glyphs of a text, in order. -/
def ofBytes (bytes : Bytes) : List Glyph := read 0 bytes

end Glyph

namespace Bytes

/-- The text that well-formed bytes encode, `none` for ill-formed ones. -/
def toString? (bytes : Bytes) : Option String :=
  ((Glyph.ofBytes bytes).mapM Glyph.scalar).map String.ofList

/-- The text of any bytes, with U+FFFD for each piece that does not decode. -/
def toStringLossy (bytes : Bytes) : String :=
  String.ofList ((Glyph.ofBytes bytes).map Glyph.char)

/-- The number of line feeds among the first `offset` bytes. -/
def lineFeeds (bytes : Bytes) (offset : Nat) : Nat :=
  (bytes.take offset).count 10

/-- The blanks that are trimmed from bytes: tab, line feed, vertical tab, form feed,
carriage return and space. -/
def isBlank (b : UInt8) : Bool := b == 32 || (9 ≤ b && b ≤ 13)

/-- Drop a longest run of bytes with property `p` from the end. -/
def dropEndWhile (p : UInt8 → Bool) (bytes : Bytes) : Bytes :=
  (bytes.reverse.dropWhile p).reverse

/-- Drop blanks from both ends. -/
def trim (bytes : Bytes) : Bytes := dropEndWhile isBlank (bytes.dropWhile isBlank)

end Bytes

end TypeGraft
