import TypeGraft.Syntax.Cursor

/-!
# Lexemes

A `TypeGraft.Syntax.Lexeme` is a class of words of the script language, and
`Lexeme.length?` says how many characters a word of the class takes at the front of a text,
if one stands there.

What a character begins depends on where it stands: a slash is a division or the start of a
regular expression, and `>>` is one operator or the end of two argument lists. So lexemes
are looked for by the grammar, one class at a time, and there is no list of tokens.
-/

namespace TypeGraft.Syntax

/-- Whether a character may stand in a name. All characters may, but for controls, blanks
and the ASCII punctuation other than `$` and `_`. -/
def isNameChar (c : Char) : Bool :=
  !(c < ' ' || isScriptBlank c || c == '\uFFFD' ||
    ":;`\"'@#.,|^&<=>+-*/\\%?!~()[]\x7b\x7d".toList.contains c)

/-- The words that name nothing by themselves. -/
def reservedWords : List String :=
  ["break", "case", "catch", "class", "const", "continue", "debugger", "default", "delete",
   "do", "else", "enum", "export", "extends", "false", "finally", "for", "function", "if",
   "import", "in", "instanceof", "new", "null", "return", "super", "switch", "this", "throw",
   "true", "try", "typeof", "var", "void", "while", "with"]

/-- The operators and other marks of more than one character, longest first. -/
def longMarks : List (List Char) :=
  [">>>=", "...", "===", "!==", "**=", "<<=", ">>=", ">>>", "&&=", "||=", "??=", "=>", "==",
   "!=", "<=", ">=", "&&", "||", "??", "?.", "++", "--", "+=", "-=", "*=", "/=", "%=", "&=",
   "|=", "^=", "<<", ">>", "**"].map String.toList

/-- A class of words of the script language. -/
inductive Lexeme where
  /-- The characters of `text`, whatever follows them. -/
  | sign (text : String)
  /-- One of `marks`, where no longer mark stands. -/
  | operator (marks : List String)
  /-- The name `text`. -/
  | word (text : String)
  /-- A name that is not reserved. -/
  | identifier
  /-- A name, be it reserved or not. -/
  | anyName
  /-- A name after a number sign. -/
  | privateName
  | number
  /-- A text in single or double quotes, on one line. -/
  | string
  /-- A regular expression between slashes, with its flags. -/
  | regex
  /-- A piece of a template, up to its end or the next substitution. -/
  | templateText
  /-- The text between the tags of an element. -/
  | elementText
  /-- A name that may contain hyphens. -/
  | attributeName
  /-- A quoted attribute value, which may span lines. -/
  | attributeValue
  /-- The line at the start of a script that names its interpreter. -/
  | interpreterLine
  | endOfInput

namespace Lexeme

/-- Whether the text starts with `expected`. -/
def startsWith : (expected : List Char) → List Glyph → Bool
  | [], _ => true
  | _ :: _, [] => false
  | c :: expected, g :: rest => c == g.char && startsWith expected rest

/-- The number of leading characters with property `p`. -/
def runLength (p : Char → Bool) : List Glyph → Nat
  | [] => 0
  | g :: rest => if p g.char then runLength p rest + 1 else 0

/-- The length of the name at the front. An escaped character, a backslash with `u` and
digits after it, is part of a name. -/
def nameLength : List Glyph → Nat
  | [] => 0
  | g :: rest =>
    if isNameChar g.char then nameLength rest + 1
    else if g.char = '\\' then
      match rest with
      | h :: rest' => if h.char = 'u' then nameLength rest' + 2 else 0
      | [] => 0
    else 0

/-- The first `count` characters. -/
def spelling (count : Nat) (rest : List Glyph) : String :=
  String.ofList ((rest.take count).map Glyph.char)

/-- A name cannot start with a digit. -/
def name? (rest : List Glyph) : Option Nat :=
  match rest with
  | g :: _ => if g.char.isDigit then none else
    match nameLength rest with
    | 0 => none
    | n => some n
  | [] => none

/-- The mark at the front, the longest one. A question mark and a point before a digit are
two marks, as in `a?.5:b`. -/
def mark? (rest : List Glyph) : Option (List Char) :=
  match longMarks.find? (startsWith · rest) with
  | some m =>
    if m == ['?', '.'] && ((rest.drop 2).head?.map (·.char.isDigit)).getD false then some ['?']
    else some m
  | none => rest.head?.map fun g => [g.char]

/-- The length of a quoted text behind its opening quote; a backslash hides the character
after it. Without `multiline`, a bare line feed or carriage return ends the search. -/
def quotedLength? (quote : Char) (escapes multiline : Bool) : List Glyph → Option Nat
  | [] => none
  | g :: rest =>
    if g.char = quote then some 1
    else if escapes && g.char == '\\' then
      match rest with
      | _ :: rest' => (quotedLength? quote escapes multiline rest').map (· + 2)
      | [] => none
    else if !multiline && (g.char == '\n' || g.char == '\r') then none
    else (quotedLength? quote escapes multiline rest).map (· + 1)

/-- The length of the text of a template before its next substitution or its end. -/
def templateLength : List Glyph → Nat
  | [] => 0
  | g :: rest =>
    if g.char = '`' then 0
    else if g.char = '\\' then
      match rest with
      | _ :: rest' => templateLength rest' + 2
      | [] => 1
    else if g.char = '$' then
      match rest with
      | h :: _ => if h.char = '\x7b' then 0 else templateLength rest + 1
      | [] => 1
    else templateLength rest + 1

/-- The length of a regular expression behind its opening slash, the closing one included;
in brackets a slash does not close it. -/
def regexLength? : (inClass : Bool) → List Glyph → Option Nat
  | _, [] => none
  | inClass, g :: rest =>
    if isLineBreak g.char then none
    else if g.char = '\\' then
      match rest with
      | h :: rest' => if isLineBreak h.char then none else (regexLength? inClass rest').map (· + 2)
      | [] => none
    else if g.char = '/' && !inClass then some 1
    else if g.char = '[' then (regexLength? true rest).map (· + 1)
    else if g.char = ']' then (regexLength? false rest).map (· + 1)
    else (regexLength? inClass rest).map (· + 1)

/-- The length of a run of digits, with underscores between them. -/
def digits (rest : List Glyph) : Nat :=
  match rest with
  | g :: _ => if g.char.isDigit then runLength (fun c => c.isDigit || c == '_') rest else 0
  | [] => 0

/-- The length of an exponent, 0 where none stands. -/
def exponentLength (rest : List Glyph) : Nat :=
  match rest with
  | e :: rest =>
    if e.char == 'e' || e.char == 'E' then
      match rest with
      | s :: rest' =>
        if s.char == '+' || s.char == '-' then
          match digits rest' with
          | 0 => 0
          | n => n + 2
        else match digits rest with
          | 0 => 0
          | n => n + 1
      | [] => 0
    else 0
  | [] => 0

/-- The length of a number without the check of what follows it. -/
def bareNumberLength (rest : List Glyph) : Nat :=
  let integer := digits rest
  let radix := (rest.drop 1).head?.map (·.char.toLower)
  if startsWith ['0'] rest && (radix == some 'x' || radix == some 'o' || radix == some 'b') then
    2 + runLength (fun c => c.isAlphanum || c == '_') (rest.drop 2)
  else
    let tail := rest.drop integer
    if startsWith ['n'] tail && integer != 0 then integer + 1
    else if startsWith ['.'] tail then
      let fraction := digits (tail.drop 1)
      if integer == 0 && fraction == 0 then 0
      else integer + 1 + fraction + exponentLength (tail.drop (1 + fraction))
    else if integer == 0 then 0
    else integer + exponentLength tail

/-- The number of characters of a word of the class at the front of a text, `none` if no
such word stands there. -/
def length? : Lexeme → List Glyph → Option Nat
  | sign text, rest => if startsWith text.toList rest then some text.length else none
  | operator marks, rest =>
    match mark? rest with
    | some m => if marks.contains (String.ofList m) then some m.length else none
    | none => none
  | word text, rest =>
    if startsWith text.toList rest && nameLength rest == text.length then some text.length
    else none
  | identifier, rest =>
    (name? rest).bind fun n => if reservedWords.contains (spelling n rest) then none else some n
  | anyName, rest => name? rest
  | privateName, rest =>
    if startsWith ['#'] rest then (name? (rest.drop 1)).map (· + 1) else none
  | number, rest =>
    match bareNumberLength rest with
    | 0 => none
    | n => if nameLength (rest.drop n) == 0 then some n else none
  | string, g :: rest =>
    if g.char == '"' || g.char == '\'' then (quotedLength? g.char true false rest).map (· + 1)
    else none
  | string, [] => none
  | regex, rest =>
    if startsWith ['/'] rest && !startsWith ['/', '*'] rest && !startsWith ['/', '/'] rest then
      (regexLength? false (rest.drop 1)).map fun n => 1 + n + nameLength (rest.drop (1 + n))
    else none
  | templateText, rest =>
    match templateLength rest with
    | 0 => none
    | n => some n
  | elementText, rest =>
    match runLength (fun c => !("\x7b\x7d<>".toList.contains c)) rest with
    | 0 => none
    | n => some n
  | attributeName, rest =>
    (name? rest).bind fun _ => some (runLength (fun c => isNameChar c || c == '-') rest)
  | attributeValue, g :: rest =>
    if g.char == '"' || g.char == '\'' then (quotedLength? g.char false true rest).map (· + 1)
    else none
  | attributeValue, [] => none
  | interpreterLine, rest =>
    if startsWith ['#', '!'] rest then some (runLength (fun c => !isLineBreak c) rest) else none
  | endOfInput, rest => if rest.isEmpty then some 0 else none

end Lexeme

end TypeGraft.Syntax
