import TypeGraft.Json.Reader
import TypeGraft.Proofs.Json.Pieces

/-!
# JSON documents with comments

The grammar of JSON, with comments wherever white space may stand and with a comma behind the
last item of an array or an object (`TypeGraft.Json.Document`). A document knows the pieces that
it is written with (`TypeGraft.Json.Document.pieces`) and the value that it stands for
(`TypeGraft.Json.Document.json?`). Numbers and strings are written in all ways that JSON has for
them, so that each text of a value is the text of a document.

**What is left of it.** `TypeGraft.Json.Document.left` is the text without the comments and the
commas that fall. A comma behind the last item falls if there is only white space between it and
the closing mark; behind a comment it is held (`TypeGraft.Json.Items.isHeld`). The main
statement is `TypeGraft.Json.withoutComments_eq`: for all sequences of pieces, comments and
commas in front of closing marks are what is taken out, and nothing is taken out of a plain
document.
-/

namespace TypeGraft.Json

/-! ### Numbers -/

/-- A decimal digit. -/
abbrev Digit := Fin 10

/-- A digit, as it is written. -/
def Digit.char (d : Digit) : Char := Nat.digitChar d.val

/-- The number that digits write. -/
def amount (digits : List Digit) : Nat := digits.foldl (fun n d => 10 * n + d.val) 0

/-- The exponent of a number. -/
structure Exponent where
  mark : Char
  /-- Its sign, if it is written. -/
  sign : Option Char
  digits : List Digit
  isMark : mark = 'e' ∨ mark = 'E'
  isSign : ∀ c ∈ sign, c = '+' ∨ c = '-'
  nonempty : digits ≠ []

/-- An exponent, as it is written. -/
def Exponent.text (e : Exponent) : List Char :=
  e.mark :: (e.sign.toList ++ e.digits.map Digit.char)

/-- The power of ten that an exponent stands for. -/
def Exponent.power (e : Exponent) : Int :=
  if e.sign = some '-' then -(amount e.digits : Int) else amount e.digits

/-- A number. -/
structure Numeral where
  negative : Bool
  whole : List Digit
  /-- The digits behind the point, if there is one. -/
  decimals : Option (List Digit)
  exponent : Option Exponent
  nonempty : whole ≠ []
  /-- A whole part of several digits does not begin with a zero. -/
  noLeadingZero : whole.head? = some 0 → whole = [0]
  decimals_nonempty : ∀ digits ∈ decimals, digits ≠ []

namespace Numeral

/-- The digits behind the point, as they are written. -/
def fractionText (n : Numeral) : List Char :=
  match n.decimals with
  | some digits => '.' :: digits.map Digit.char
  | none => []

/-- A number, as it is written. -/
def text (n : Numeral) : List Char :=
  (if n.negative then ['-'] else []) ++ n.whole.map Digit.char ++ n.fractionText ++
    (n.exponent.map Exponent.text).getD []

/-- The value of a number: whole if it has neither a point nor an exponent. -/
def json (n : Numeral) : Json :=
  match n.decimals, n.exponent with
  | none, none => integer (if n.negative then -(amount n.whole : Int) else amount n.whole)
  | decimals, exponent =>
    let decimals := decimals.getD []
    real (.ofDecimal n.negative (amount (n.whole ++ decimals))
      ((exponent.map Exponent.power).getD 0 - decimals.length))

end Numeral

/-! ### Strings -/

/-- A hexadecimal digit, which may be written as a capital letter. -/
structure HexDigit where
  value : Fin 16
  capital : Bool

/-- A hexadecimal digit, as it is written. -/
def HexDigit.char (d : HexDigit) : Char :=
  if d.capital then (Nat.digitChar d.value.val).toUpper else Nat.digitChar d.value.val

/-- Sixteen bits of a character, given by four hexadecimal digits. -/
structure CodeUnit where
  first : HexDigit
  second : HexDigit
  third : HexDigit
  fourth : HexDigit

namespace CodeUnit

/-- The number of a code unit. -/
def value (u : CodeUnit) : Nat :=
  ((u.first.value.val * 16 + u.second.value.val) * 16 + u.third.value.val) * 16 +
    u.fourth.value.val

/-- A code unit, as it is written. -/
def text (u : CodeUnit) : List Char :=
  ['\\', 'u', u.first.char, u.second.char, u.third.char, u.fourth.char]

end CodeUnit

/-- The characters that have a letter for them behind a backslash. -/
inductive Escape where
  | quote
  | backslash
  | slash
  | backspace
  | formFeed
  | lineFeed
  | carriageReturn
  | tab
deriving DecidableEq, Repr

/-- The letter behind the backslash. -/
def Escape.letter : Escape → Char
  | quote => '"'
  | backslash => '\\'
  | slash => '/'
  | backspace => 'b'
  | formFeed => 'f'
  | lineFeed => 'n'
  | carriageReturn => 'r'
  | tab => 't'

/-- The character that an escape stands for. -/
def Escape.char : Escape → Char
  | quote => '"'
  | backslash => '\\'
  | slash => '/'
  | backspace => '\x08'
  | formFeed => '\x0c'
  | lineFeed => '\n'
  | carriageReturn => '\r'
  | tab => '\t'

/-- One character of a string. -/
inductive Letter where
  /-- A character that stands for itself. -/
  | plain (c : Char) (notQuote : c ≠ '"') (notSlash : c ≠ '\\') (notControl : ' ' ≤ c)
  | escape (e : Escape)
  | unit (u : CodeUnit) (alone : isHighSurrogate u.value = false ∧ isLowSurrogate u.value = false)
  | pair (high low : CodeUnit) (isHigh : isHighSurrogate high.value = true)
      (isLow : isLowSurrogate low.value = true)
  /-- Half of a pair, which stands for no character. -/
  | half (u : CodeUnit) (isHalf : isHighSurrogate u.value = true ∨ isLowSurrogate u.value = true)

namespace Letter

/-- A character of a string, as it is written. -/
def text : Letter → List Char
  | plain c _ _ _ => [c]
  | escape e => ['\\', e.letter]
  | unit u _ => u.text
  | pair high low _ _ => high.text ++ low.text
  | half u _ => u.text

/-- The character that is meant. -/
def char? : Letter → Option Char
  | plain c _ _ _ => some c
  | escape e => some e.char
  | unit u _ => some (Char.ofNat u.value)
  | pair high low _ _ =>
    some (Char.ofNat (0x10000 + (high.value - 0xD800) * 0x400 + (low.value - 0xDC00)))
  | half _ _ => none

end Letter

/-- The characters between the quotes of a string. -/
def lettersText (letters : List Letter) : List Char := letters.flatMap Letter.text

/-- The string that is meant. -/
def lettersString? (letters : List Letter) : Option String :=
  (letters.mapM Letter.char?).map String.ofList

/-! ### White space and comments -/

/-- What may stand between two tokens. A line comment comes with the line break behind it. -/
inductive Filler where
  | space (c : Char) (isSpace : isSpace c = true)
  | line (inside : List Char) (inLine : '\n' ∉ inside)
  | block (inside : List Char) (unclosed : ¬['*', '/'] <:+: inside)

/-- All that stands between two tokens. -/
abbrev Gap := List Filler

theorem isBlank_of_isSpace {c : Char} (h : isSpace c = true) : Text.isBlank c = true := by
  simp only [isSpace, Bool.or_eq_true, beq_iff_eq] at h
  rcases h with ((rfl | rfl) | rfl) | rfl <;> rfl

namespace Filler

/-- The pieces of what stands between two tokens. -/
def pieces : Filler → List Piece
  | space c h => [.blank c (isBlank_of_isSpace h)]
  | line inside h => [.lineComment inside h, .blank '\n' rfl]
  | block inside h => [.blockComment inside h]

/-- What is left without the comments. -/
def left : Filler → List Char
  | space c _ => [c]
  | line _ _ => ['\n']
  | block _ _ => []

/-- Whether there is a comment. -/
def isComment : Filler → Bool
  | space _ _ => false
  | _ => true

end Filler

namespace Gap

def pieces (gap : Gap) : List Piece := gap.flatMap Filler.pieces

def left (gap : Gap) : List Char := gap.flatMap Filler.left

/-- Whether a comment is in the gap. -/
def hasComment (gap : Gap) : Bool := gap.any Filler.isComment

end Gap

/-! ### Values -/

/-- A value without items. -/
inductive Scalar where
  | null
  | bool (value : Bool)
  | number (numeral : Numeral)
  | string (letters : List Letter)

/-- The name of a member of an object, with the gaps around the colon behind it. -/
structure Label where
  letters : List Letter
  beforeColon : Gap
  behindColon : Gap

mutual

/-- A value, as it is written. -/
inductive Value where
  | scalar (scalar : Scalar)
  | array (items : Items)
  | object (members : Members)

/-- What stands between the brackets of an array, or behind one of its commas. -/
inductive Items where
  /-- No item. Behind a comma this makes it one behind the last item. -/
  | none (inside : Gap)
  | last (before : Gap) (item : Value) (behind : Gap)
  | more (before : Gap) (item : Value) (behind : Gap) (rest : Items)

/-- What stands between the braces of an object, or behind one of its commas. -/
inductive Members where
  /-- No member. Behind a comma this makes it one behind the last member. -/
  | none (inside : Gap)
  | last (before : Gap) (label : Label) (item : Value) (behind : Gap)
  | more (before : Gap) (label : Label) (item : Value) (behind : Gap) (rest : Members)

end

/-- A text with one value. At its end there may be a line comment without a line break. -/
structure Document where
  before : Gap
  value : Value
  behind : Gap
  tail : Option { inside : List Char // '\n' ∉ inside }

/-! ### What is written -/

theorem Digit.isWordChar_char : ∀ d : Digit, isWordChar d.char = true := by decide

theorem Numeral.text_ne_nil (n : Numeral) : n.text ≠ [] := by
  simp [Numeral.text, n.nonempty]

/-- The characters of a number are digits, signs, points and the marks of exponents. -/
theorem Numeral.forall_mem_text (n : Numeral) {p : Char → Bool}
    (hdigit : ∀ d : Digit, p d.char = true) (hmarks : ['-', '+', '.', 'e', 'E'].all p = true) :
    ∀ c ∈ n.text, p c = true := by
  have hmark : ∀ c ∈ ['-', '+', '.', 'e', 'E'], p c = true := List.all_eq_true.mp hmarks
  have hdigits : ∀ digits : List Digit, ∀ c ∈ digits.map Digit.char, p c = true := by
    intro digits c hc
    obtain ⟨d, -, rfl⟩ := List.mem_map.mp hc
    exact hdigit d
  have hexponent : ∀ e : Exponent, ∀ c ∈ e.text, p c = true := by
    intro e c hc
    rw [Exponent.text, List.mem_cons, List.mem_append, Option.mem_toList] at hc
    rcases hc with rfl | hc | hc
    · exact hmark _ (by rcases e.isMark with h | h <;> rw [h] <;> decide)
    · exact hmark _ (by rcases e.isSign c hc with rfl | rfl <;> decide)
    · exact hdigits _ c hc
  intro c h
  rw [text, List.mem_append, List.mem_append, List.mem_append] at h
  rcases h with ((h | h) | h) | h
  · split at h
    · exact hmark c (List.mem_singleton.mp h ▸ List.mem_cons_self)
    · cases h
  · exact hdigits _ c h
  · unfold fractionText at h
    split at h
    · rcases List.mem_cons.mp h with rfl | h
      · exact hmark _ (by decide)
      · exact hdigits _ c h
    · cases h
  · cases hexp : n.exponent with
    | none => simp [hexp] at h
    | some e =>
      rw [hexp] at h
      exact hexponent e c h

theorem Numeral.isWordChar_of_mem_text {n : Numeral} {c : Char} (h : c ∈ n.text) :
    isWordChar c = true :=
  n.forall_mem_text Digit.isWordChar_char (by decide) c h

theorem HexDigit.char_plain (d : HexDigit) : d.char ≠ '"' ∧ d.char ≠ '\\' := by
  obtain ⟨value, capital⟩ := d
  revert value capital
  decide

theorem Enclosed.append {inside rest : List Char} (h : Enclosed inside) (hrest : Enclosed rest) :
    Enclosed (inside ++ rest) := by
  induction h with
  | nil => exact hrest
  | plain hquote hslash _ ih => exact .plain hquote hslash ih
  | escaped c _ ih => exact .escaped c ih

theorem CodeUnit.enclosed_text (u : CodeUnit) : Enclosed u.text := by
  refine .escaped 'u' ?_
  have hdigit : ∀ (d : HexDigit) {rest : List Char}, Enclosed rest → Enclosed (d.char :: rest) :=
    fun d _ h => .plain d.char_plain.1 d.char_plain.2 h
  exact hdigit _ (hdigit _ (hdigit _ (hdigit _ .nil)))

theorem enclosed_lettersText (letters : List Letter) : Enclosed (lettersText letters) := by
  induction letters with
  | nil => exact .nil
  | cons letter letters ih =>
    refine Enclosed.append ?_ ih
    cases letter with
    | plain c hquote hslash _ => exact .plain hquote hslash .nil
    | escape e => exact .escaped _ .nil
    | unit u _ => exact u.enclosed_text
    | pair high low _ _ => exact high.enclosed_text.append low.enclosed_text
    | half u _ => exact u.enclosed_text

/-- A string, as a piece. -/
def stringPiece (letters : List Letter) : Piece :=
  .string (lettersText letters) (enclosed_lettersText letters)

/-- A value without items, as a piece. -/
def Scalar.piece : Scalar → Piece
  | null => .word ['n', 'u', 'l', 'l'] (by decide) (List.all_eq_true.mp rfl)
  | bool true => .word ['t', 'r', 'u', 'e'] (by decide) (List.all_eq_true.mp rfl)
  | bool false => .word ['f', 'a', 'l', 's', 'e'] (by decide) (List.all_eq_true.mp rfl)
  | number n => .word n.text n.text_ne_nil fun _ h => n.isWordChar_of_mem_text h
  | string letters => stringPiece letters

/-- The value that is meant. -/
def Scalar.json? : Scalar → Option Json
  | null => some Json.null
  | bool b => some (Json.bool b)
  | number n => some n.json
  | string letters => (lettersString? letters).map Json.string

/-- The pieces of a name with its colon. -/
def Label.pieces (label : Label) : List Piece :=
  stringPiece label.letters :: (label.beforeColon.pieces ++
    .mark .colon :: label.behindColon.pieces)

/-- What is left of a name with its colon. -/
def Label.left (label : Label) : List Char :=
  (stringPiece label.letters).text ++ label.beforeColon.left ++ ':' :: label.behindColon.left

/-- A comment stands between a comma and the closing mark, and nothing but white space and
comments. -/
def Items.isHeld : Items → Bool
  | .none inside => inside.hasComment
  | _ => false

/-- Only white space stands between a comma and the closing mark. -/
def Items.isBare : Items → Bool
  | .none inside => !inside.hasComment
  | _ => false

@[inherit_doc Items.isHeld]
def Members.isHeld : Members → Bool
  | .none inside => inside.hasComment
  | _ => false

@[inherit_doc Items.isBare]
def Members.isBare : Members → Bool
  | .none inside => !inside.hasComment
  | _ => false

mutual

/-- The pieces of a value. -/
def Value.pieces : Value → List Piece
  | .scalar s => [s.piece]
  | .array items => .mark .openBracket :: (items.pieces ++ [.mark .closeBracket])
  | .object members => .mark .openBrace :: (members.pieces ++ [.mark .closeBrace])

def Items.pieces : Items → List Piece
  | .none inside => inside.pieces
  | .last before item behind => before.pieces ++ item.pieces ++ behind.pieces
  | .more before item behind rest =>
    before.pieces ++ item.pieces ++ behind.pieces ++ .mark .comma :: rest.pieces

def Members.pieces : Members → List Piece
  | .none inside => inside.pieces
  | .last before label item behind =>
    before.pieces ++ label.pieces ++ item.pieces ++ behind.pieces
  | .more before label item behind rest =>
    before.pieces ++ label.pieces ++ item.pieces ++ behind.pieces ++ .mark .comma :: rest.pieces

end

mutual

/-- What is left of a value without its comments and the commas that fall. -/
def Value.left : Value → List Char
  | .scalar s => s.piece.text
  | .array items => '[' :: (items.left ++ [']'])
  | .object members => '\x7b' :: (members.left ++ ['\x7d'])

def Items.left : Items → List Char
  | .none inside => inside.left
  | .last before item behind => before.left ++ item.left ++ behind.left
  | .more before item behind rest =>
    before.left ++ item.left ++ behind.left ++ (if rest.isBare then [] else [',']) ++ rest.left

def Members.left : Members → List Char
  | .none inside => inside.left
  | .last before label item behind => before.left ++ label.left ++ item.left ++ behind.left
  | .more before label item behind rest =>
    before.left ++ label.left ++ item.left ++ behind.left ++
      (if rest.isBare then [] else [',']) ++ rest.left

end

mutual

/-- The value that is meant. -/
def Value.json? : Value → Option Json
  | .scalar s => s.json?
  | .array items => items.list?.map Json.array
  | .object members =>
    members.list?.map fun list => Json.object (list.foldl (fun ms m => putMember ms m.1 m.2) [])

/-- The items that are meant. -/
def Items.list? : Items → Option (List Json)
  | .none _ => some []
  | .last _ item _ => item.json?.map fun json => [json]
  | .more _ item _ rest => item.json?.bind fun json => rest.list?.map (json :: ·)

/-- The members that are meant, with all that are written for one name. -/
def Members.list? : Members → Option (List (String × Json))
  | .none _ => some []
  | .last _ label item _ =>
    (lettersString? label.letters).bind fun name => item.json?.map fun json => [(name, json)]
  | .more _ label item _ rest =>
    (lettersString? label.letters).bind fun name => item.json?.bind fun json =>
      rest.list?.map ((name, json) :: ·)

end

namespace Document

/-- The pieces of a document. -/
def pieces (d : Document) : List Piece :=
  d.before.pieces ++ d.value.pieces ++ d.behind.pieces ++
    (d.tail.map fun tail => Piece.lineComment tail.val tail.property).toList

/-- The text of a document. -/
def text (d : Document) : String := String.ofList (spelled d.pieces)

/-- What is left of a document without its comments and the commas that fall. -/
def left (d : Document) : List Char := d.before.left ++ d.value.left ++ d.behind.left

/-- The value that a document stands for. -/
def json? (d : Document) : Option Json := d.value.json?

end Document

/-! ### Plain documents -/

mutual

/-- **A value is plain**: there are no comments in it, and no commas behind the last item of an
array or an object. -/
def Value.isPlain : Value → Bool
  | .scalar _ => true
  | .array items => items.isPlain
  | .object members => members.isPlain

def Items.isPlain : Items → Bool
  | .none inside => !inside.hasComment
  | .last before item behind => !before.hasComment && item.isPlain && !behind.hasComment
  | .more before item behind rest =>
    !before.hasComment && item.isPlain && !behind.hasComment && !rest.isBare && rest.isPlain

def Members.isPlain : Members → Bool
  | .none inside => !inside.hasComment
  | .last before label item behind =>
    !before.hasComment && !label.beforeColon.hasComment && !label.behindColon.hasComment &&
      item.isPlain && !behind.hasComment
  | .more before label item behind rest =>
    !before.hasComment && !label.beforeColon.hasComment && !label.behindColon.hasComment &&
      item.isPlain && !behind.hasComment && !rest.isBare && rest.isPlain

end

/-- **A document is plain**, as JSON has it: it holds no comments, and no commas behind the last
item of an array or an object. -/
def Document.isPlain (d : Document) : Bool :=
  !d.before.hasComment && d.value.isPlain && !d.behind.hasComment && d.tail.isNone

/-! ### What is left -/

/-- A piece that is neither a comma nor a comment remains. -/
theorem remaining_cons_of_not {piece : Piece} {rest : List Piece}
    (hcomment : piece.isComment = false)
    (hcomma : piece.isComma = false) : remaining (piece :: rest) = piece :: remaining rest := by
  rw [remaining, hcomment, hcomma, Bool.false_and, Bool.or_false, if_neg (by decide)]

namespace Gap

variable (gap : Gap) (rest : List Piece)

theorem linesEnd_iff : LinesEnd (gap.pieces ++ rest) ↔ LinesEnd rest := by
  induction gap with
  | nil => rfl
  | cons filler gap ih =>
    rw [pieces, List.flatMap_cons, List.append_assoc, ← pieces]
    cases filler with
    | space c h => simpa [Filler.pieces, linesEnd_cons, Piece.isLineComment] using ih
    | line inside h =>
      simpa [Filler.pieces, linesEnd_cons, Piece.isLineComment, Piece.text] using ih
    | block inside h => simpa [Filler.pieces, linesEnd_cons, Piece.isLineComment] using ih

theorem closesFirst_eq :
    closesFirst (gap.pieces ++ rest) = (!gap.hasComment && closesFirst rest) := by
  induction gap with
  | nil => rfl
  | cons filler gap ih =>
    rw [pieces, List.flatMap_cons, List.append_assoc, ← pieces, hasComment, List.any_cons,
      ← hasComment]
    cases filler with
    | space c h => exact ih
    | line | block => rfl

/-- Of a gap the white space is left. -/
theorem remaining_eq :
    spelled (remaining (gap.pieces ++ rest)) = gap.left ++ spelled (remaining rest) := by
  induction gap with
  | nil => rfl
  | cons filler gap ih =>
    rw [pieces, List.flatMap_cons, List.append_assoc, ← pieces, left, List.flatMap_cons, ← left,
      List.append_assoc, ← ih]
    cases filler <;> rfl

end Gap

theorem Scalar.spelled_remaining (s : Scalar) (rest : List Piece) :
    spelled (remaining (s.piece :: rest)) = s.piece.text ++ spelled (remaining rest) := by
  rw [remaining_cons_of_not, spelled_cons]
  all_goals cases s with
  | bool b => cases b <;> rfl
  | _ => rfl

theorem Scalar.isLineComment_piece (s : Scalar) : s.piece.isLineComment = false := by
  cases s with
  | bool b => cases b <;> rfl
  | _ => rfl

theorem Label.linesEnd_iff (label : Label) (rest : List Piece) :
    LinesEnd (label.pieces ++ rest) ↔ LinesEnd rest := by
  simp [Label.pieces, stringPiece, linesEnd_cons, Piece.isLineComment, Gap.linesEnd_iff]

theorem Label.spelled_remaining (label : Label) (rest : List Piece) :
    spelled (remaining (label.pieces ++ rest)) = label.left ++ spelled (remaining rest) := by
  rw [Label.pieces, List.cons_append, remaining_cons_of_not rfl rfl, spelled_cons,
    List.append_assoc, Gap.remaining_eq, List.cons_append, remaining_cons_of_not rfl rfl,
    spelled_cons, Gap.remaining_eq]
  simp [Label.left, Piece.text, Mark.char]

/-- No closing mark stands where a value does. -/
theorem Value.closesFirst_eq_false (v : Value) (rest : List Piece) :
    closesFirst (v.pieces ++ rest) = false := by
  cases v with
  | scalar s =>
    rw [Value.pieces]
    cases s with
    | bool b => cases b <;> rfl
    | _ => rfl
  | array | object => simp [Value.pieces, closesFirst, Mark.closes]

/-- A comma falls if only white space comes behind it before the array ends. -/
theorem Items.closesFirst_eq (items : Items) (rest : List Piece) :
    closesFirst (items.pieces ++ .mark .closeBracket :: rest) = items.isBare := by
  cases items with
  | none inside => simp [Items.pieces, Items.isBare, Gap.closesFirst_eq, closesFirst, Mark.closes]
  | last | more =>
    simp [Items.pieces, Items.isBare, Gap.closesFirst_eq, Value.closesFirst_eq_false]

theorem Members.closesFirst_eq (members : Members) (rest : List Piece) :
    closesFirst (members.pieces ++ .mark .closeBrace :: rest) = members.isBare := by
  cases members with
  | none inside => simp [Members.pieces, Members.isBare, Gap.closesFirst_eq, closesFirst,
      Mark.closes]
  | last | more =>
    simp [Members.pieces, Members.isBare, Gap.closesFirst_eq, Label.pieces, stringPiece,
      closesFirst]

/-- What remains of a comma. -/
theorem spelled_remaining_comma (rest : List Piece) :
    spelled (remaining (.mark .comma :: rest)) =
      (if closesFirst rest then [] else [',']) ++ spelled (remaining rest) := by
  rw [remaining]
  cases closesFirst rest <;> rfl

mutual

theorem Value.linesEnd_iff (v : Value) (rest : List Piece) :
    LinesEnd (v.pieces ++ rest) ↔ LinesEnd rest := by
  cases v with
  | scalar s => simp [Value.pieces, linesEnd_cons, s.isLineComment_piece]
  | array items =>
    simp [Value.pieces, linesEnd_cons, Piece.isLineComment, Items.linesEnd_iff items]
  | object members =>
    simp [Value.pieces, linesEnd_cons, Piece.isLineComment, Members.linesEnd_iff members]

theorem Items.linesEnd_iff (items : Items) (rest : List Piece) :
    LinesEnd (items.pieces ++ rest) ↔ LinesEnd rest := by
  cases items with
  | none inside => simp [Items.pieces, Gap.linesEnd_iff]
  | last before item behind =>
    simp [Items.pieces, Gap.linesEnd_iff, Value.linesEnd_iff item]
  | more before item behind more =>
    simp [Items.pieces, linesEnd_cons, Piece.isLineComment, Gap.linesEnd_iff,
      Value.linesEnd_iff item, Items.linesEnd_iff more]

theorem Members.linesEnd_iff (members : Members) (rest : List Piece) :
    LinesEnd (members.pieces ++ rest) ↔ LinesEnd rest := by
  cases members with
  | none inside => simp [Members.pieces, Gap.linesEnd_iff]
  | last before label item behind =>
    simp [Members.pieces, Gap.linesEnd_iff, Label.linesEnd_iff, Value.linesEnd_iff item]
  | more before label item behind more =>
    simp [Members.pieces, linesEnd_cons, Piece.isLineComment, Gap.linesEnd_iff, Label.linesEnd_iff,
      Value.linesEnd_iff item, Members.linesEnd_iff more]

end

mutual

/-- **What remains of a value** among other pieces. -/
theorem Value.spelled_remaining (v : Value) (rest : List Piece) :
    spelled (remaining (v.pieces ++ rest)) = v.left ++ spelled (remaining rest) := by
  cases v with
  | scalar s => simp [Value.pieces, Value.left, s.spelled_remaining]
  | array items =>
    have hopen : ∀ rest, spelled (remaining (.mark .openBracket :: rest)) =
        '[' :: spelled (remaining rest) := fun _ => rfl
    simp [Value.pieces, Value.left, hopen, Items.spelled_remaining items]
  | object members =>
    have hopen : ∀ rest, spelled (remaining (.mark .openBrace :: rest)) =
        '\x7b' :: spelled (remaining rest) := fun _ => rfl
    simp [Value.pieces, Value.left, hopen, Members.spelled_remaining members]

theorem Items.spelled_remaining (items : Items) (rest : List Piece) :
    spelled (remaining (items.pieces ++ .mark .closeBracket :: rest)) =
      items.left ++ ']' :: spelled (remaining rest) := by
  have hclose : spelled (remaining (.mark .closeBracket :: rest)) =
      ']' :: spelled (remaining rest) :=
    rfl
  cases items with
  | none inside => simp [Items.pieces, Items.left, Gap.remaining_eq, hclose]
  | last before item behind =>
    simp [Items.pieces, Items.left, Gap.remaining_eq, Value.spelled_remaining item, hclose]
  | more before item behind more =>
    simp [Items.pieces, Items.left, Gap.remaining_eq, Value.spelled_remaining item,
      spelled_remaining_comma, Items.closesFirst_eq, Items.spelled_remaining more]

theorem Members.spelled_remaining (members : Members) (rest : List Piece) :
    spelled (remaining (members.pieces ++ .mark .closeBrace :: rest)) =
      members.left ++ '\x7d' :: spelled (remaining rest) := by
  have hclose : spelled (remaining (.mark .closeBrace :: rest)) =
      '\x7d' :: spelled (remaining rest) :=
    rfl
  cases members with
  | none inside => simp [Members.pieces, Members.left, Gap.remaining_eq, hclose]
  | last before label item behind =>
    simp [Members.pieces, Members.left, Gap.remaining_eq, Label.spelled_remaining,
      Value.spelled_remaining item, hclose]
  | more before label item behind more =>
    simp [Members.pieces, Members.left, Gap.remaining_eq, Label.spelled_remaining,
      Value.spelled_remaining item, spelled_remaining_comma, Members.closesFirst_eq,
      Members.spelled_remaining more]

end

namespace Document

theorem linesEnd_pieces (d : Document) : LinesEnd d.pieces := by
  rw [pieces, List.append_assoc, List.append_assoc, Gap.linesEnd_iff, Value.linesEnd_iff,
    Gap.linesEnd_iff]
  cases d.tail with
  | none => exact List.IsChain.nil
  | some tail => exact List.IsChain.singleton _

/-- **Taking comments and last commas out of a document** leaves what is left of it. -/
theorem withoutComments_text (d : Document) : withoutComments d.text = String.ofList d.left := by
  rw [withoutComments, text, String.toList_ofList, withoutCommentsIn_spelled d.linesEnd_pieces,
    pieces, List.append_assoc, List.append_assoc, Gap.remaining_eq, Value.spelled_remaining,
    Gap.remaining_eq, left, List.append_assoc]
  cases d.tail <;> simp [remaining, Piece.isComment]

end Document

theorem Gap.left_eq {gap : Gap} (h : gap.hasComment = false) : gap.left = spelled gap.pieces := by
  induction gap with
  | nil => rfl
  | cons filler gap ih =>
    rw [hasComment, List.any_cons, Bool.or_eq_false_iff, ← hasComment] at h
    rw [left, List.flatMap_cons, ← left, pieces, List.flatMap_cons, ← pieces,
      spelled_append, ih h.2]
    cases filler with
    | space c hc => rfl
    | line | block => cases h.1

mutual

/-- Nothing of a plain value is taken out. -/
theorem Value.left_eq {v : Value} (h : v.isPlain = true) : v.left = spelled v.pieces := by
  cases v with
  | scalar s => simp [Value.left, Value.pieces]
  | array items => simp [Value.left, Value.pieces, Items.left_eq h, Piece.text, Mark.char]
  | object members => simp [Value.left, Value.pieces, Members.left_eq h, Piece.text, Mark.char]

theorem Items.left_eq {items : Items} (h : items.isPlain = true) :
    items.left = spelled items.pieces := by
  cases items with
  | none inside =>
    rw [Items.isPlain, Bool.not_eq_true'] at h
    exact Gap.left_eq h
  | last before item behind =>
    simp only [Items.isPlain, Bool.and_eq_true, Bool.not_eq_true'] at h
    obtain ⟨⟨hbefore, hitem⟩, hbehind⟩ := h
    simp [Items.left, Items.pieces, Gap.left_eq hbefore, Value.left_eq hitem, Gap.left_eq hbehind]
  | more before item behind rest =>
    simp only [Items.isPlain, Bool.and_eq_true, Bool.not_eq_true'] at h
    obtain ⟨⟨⟨⟨hbefore, hitem⟩, hbehind⟩, hbare⟩, hrest⟩ := h
    simp [Items.left, Items.pieces, Gap.left_eq hbefore, Value.left_eq hitem, Gap.left_eq hbehind,
      hbare, Items.left_eq hrest, Piece.text, Mark.char]

theorem Members.left_eq {members : Members} (h : members.isPlain = true) :
    members.left = spelled members.pieces := by
  have hlabel : ∀ label : Label, label.beforeColon.hasComment = false →
      label.behindColon.hasComment = false → label.left = spelled label.pieces := by
    intro label hbefore hbehind
    simp [Label.left, Label.pieces, Gap.left_eq hbefore, Gap.left_eq hbehind, Piece.text, Mark.char]
  cases members with
  | none inside =>
    rw [Members.isPlain, Bool.not_eq_true'] at h
    exact Gap.left_eq h
  | last before label item behind =>
    simp only [Members.isPlain, Bool.and_eq_true, Bool.not_eq_true'] at h
    obtain ⟨⟨⟨⟨hbefore, hl₁⟩, hl₂⟩, hitem⟩, hbehind⟩ := h
    simp [Members.left, Members.pieces, Gap.left_eq hbefore, hlabel label hl₁ hl₂,
      Value.left_eq hitem, Gap.left_eq hbehind]
  | more before label item behind rest =>
    simp only [Members.isPlain, Bool.and_eq_true, Bool.not_eq_true'] at h
    obtain ⟨⟨⟨⟨⟨⟨hbefore, hl₁⟩, hl₂⟩, hitem⟩, hbehind⟩, hbare⟩, hrest⟩ := h
    simp [Members.left, Members.pieces, Gap.left_eq hbefore, hlabel label hl₁ hl₂,
      Value.left_eq hitem, Gap.left_eq hbehind, hbare, Members.left_eq hrest, Piece.text, Mark.char]

end

/-- Nothing of a plain document is taken out. -/
theorem Document.left_eq {d : Document} (h : d.isPlain = true) : d.left = spelled d.pieces := by
  simp only [isPlain, Bool.and_eq_true, Bool.not_eq_true', Option.isNone_iff_eq_none] at h
  obtain ⟨⟨⟨hbefore, hvalue⟩, hbehind⟩, htail⟩ := h
  simp [left, pieces, Gap.left_eq hbefore, Value.left_eq hvalue, Gap.left_eq hbehind, htail]

/-! ### The text without comments and last commas -/

/-- **Taking comments and last commas out** of a text takes out nothing else. Of a sequence of
tokens, white space and comments the comments go, and the commas for which the next character that
is no blank is a closing mark; all other pieces stay as they are. So a plain document stays as it
is. -/
theorem withoutComments_eq :
    (∀ pieces, LinesEnd pieces → withoutComments (String.ofList (spelled pieces)) =
      String.ofList (spelled (remaining pieces))) ∧
    (∀ pieces, closesFirst pieces = true ↔ ∃ blanks c rest, spelled pieces = blanks ++ c :: rest ∧
      (∀ b ∈ blanks, Text.isBlank b = true) ∧ (c = ']' ∨ c = '\x7d')) ∧
    ∀ d : Document, d.isPlain = true → withoutComments d.text = d.text := by
  refine ⟨fun pieces h => ?_, fun pieces => closesFirst_iff, fun d h => ?_⟩
  · rw [withoutComments, String.toList_ofList, withoutCommentsIn_spelled h]
  · rw [d.withoutComments_text, d.left_eq h, Document.text]

/-- An array with marks of comments in its string, with a comment that holds a quote, and with two
commas, of which a comment holds the first. -/
def markedPieces : List Piece :=
  [.mark .openBracket,
    stringPiece [.plain '/' (by decide) (by decide) (by decide), .escape .quote,
      .plain '/' (by decide) (by decide) (by decide),
      .plain ',' (by decide) (by decide) (by decide)],
    .mark .comma, .lineComment [' ', '"'] (by decide), .blank '\n' rfl, .mark .comma,
    .blank ' ' rfl, .mark .closeBracket, .blockComment ['*', '"', '/'] (by decide)]

/-- The white space of a plain document, and its string, are kept. -/
theorem withoutComments_eq_markedPieces :
    (LinesEnd markedPieces ∧
      withoutComments "[\"/\\\"/,\",// \"\n, ]/**\"/*/" = "[\"/\\\"/,\",\n ]") ∧
    ∃ d : Document, d.isPlain = true ∧ d.text = "[ \"//\" ]" ∧ withoutComments d.text = d.text := by
  have hline : LinesEnd markedPieces := by decide
  refine ⟨⟨hline, withoutComments_eq.1 markedPieces hline⟩, ?_⟩
  let slash : Letter := .plain '/' (by decide) (by decide) (by decide)
  let d : Document :=
    ⟨[], .array (.last [.space ' ' rfl] (.scalar (.string [slash, slash])) [.space ' ' rfl]), [],
      none⟩
  exact ⟨d, rfl, rfl, withoutComments_eq.2.2 d rfl⟩

end TypeGraft.Json
