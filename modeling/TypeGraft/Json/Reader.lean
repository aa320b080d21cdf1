import TypeGraft.Json.Value

/-!
# Reading JSON

`TypeGraft.Json.parse` reads a text as one JSON value, or says what is wrong and where
(`TypeGraft.Json.Fault`).

Beside the JSON of the standard it takes the numbers `NaN`, `Infinity` and `-Infinity`. A
name that occurs twice in an object has the value given last. An escaped surrogate without
its partner stands for no character and is read as U+FFFD.
-/

namespace TypeGraft.Json

/-- What may be wrong with a JSON text. -/
inductive Problem where
  | byteOrderMark
  | value
  | name
  | colon
  | comma
  | extra
  | unterminated
  | control
  | escape
  | codePoint
deriving DecidableEq, Repr

/-- The words for a problem. -/
def Problem.describe : Problem → String
  | byteOrderMark => "Unexpected UTF-8 BOM (decode using utf-8-sig)"
  | value => "Expecting value"
  | name => "Expecting property name enclosed in double quotes"
  | colon => "Expecting ':' delimiter"
  | comma => "Expecting ',' delimiter"
  | extra => "Extra data"
  | unterminated => "Unterminated string starting at"
  | control => "Invalid control character at"
  | escape => "Invalid \\escape"
  | codePoint => "Invalid \\uXXXX escape"

/-- A problem in front of the last `remaining` characters of a text. -/
structure Halt where
  problem : Problem
  remaining : Nat

/-- A problem at a place of a text. Lines and columns count from one, characters from
zero. -/
structure Fault where
  problem : Problem
  line : Nat
  column : Nat
  position : Nat
deriving DecidableEq, Repr

/-- A problem with its place. -/
def Fault.message (f : Fault) : String :=
  s!"{f.problem.describe}: line {f.line} column {f.column} (char {f.position})"

/-- The place of a problem in the text. -/
def Halt.locate (halt : Halt) (text : List Char) : Fault :=
  let position := text.length - halt.remaining
  let before := text.take position
  let lineStart := (before.reverse.takeWhile (· != '\n')).length
  ⟨halt.problem, before.count '\n' + 1, lineStart + 1, position⟩

/-- What is left of a text, or a problem. -/
abbrev Reading (α : Type) := Except Halt (α × List Char)

/-- Stop at a problem in front of `rest`. -/
def halt {α : Type} (problem : Problem) (rest : List Char) : Except Halt α :=
  .error ⟨problem, rest.length⟩

/-- The characters that may stand between the parts of a JSON text. -/
def isSpace (c : Char) : Bool := c == ' ' || c == '\t' || c == '\n' || c == '\r'

/-- Pass over the space in front. -/
def skipSpace (text : List Char) : List Char := text.dropWhile isSpace

/-- The value of a hexadecimal digit. -/
def hexValue? (c : Char) : Option Nat :=
  if '0' ≤ c && c ≤ '9' then some (c.toNat - 48)
  else if 'a' ≤ c && c ≤ 'f' then some (c.toNat - 87)
  else if 'A' ≤ c && c ≤ 'F' then some (c.toNat - 55)
  else none

/-- The number that four hexadecimal digits at the front write, and what comes after them.
Something has to come after them. -/
def hexFour? : List Char → Option (Nat × List Char)
  | a :: b :: c :: d :: e :: rest => do
    let a ← hexValue? a
    let b ← hexValue? b
    let c ← hexValue? c
    let d ← hexValue? d
    some (((a * 16 + b) * 16 + c) * 16 + d, e :: rest)
  | _ => none

/-- The character that a backslash and a letter stand for. -/
def escaped? : Char → Option Char
  | '"' => some '"'
  | '\\' => some '\\'
  | '/' => some '/'
  | 'b' => some '\x08'
  | 'f' => some '\x0c'
  | 'n' => some '\n'
  | 'r' => some '\r'
  | 't' => some '\t'
  | _ => none

/-- Whether a number is the first half of a surrogate pair. -/
def isHighSurrogate (n : Nat) : Bool := 0xD800 ≤ n && n < 0xDC00

/-- Whether a number is the second half of a surrogate pair. -/
def isLowSurrogate (n : Nat) : Bool := 0xDC00 ≤ n && n < 0xE000

/-- The character of a code point, U+FFFD for a surrogate. -/
def charOf (n : Nat) : Char :=
  if isHighSurrogate n || isLowSurrogate n then '\uFFFD' else Char.ofNat n

/-- Read a string behind its opening quote, in front of which `fromQuote` characters were
left, after the characters `read` (in reverse). -/
def string? (fromQuote : Nat) : (fuel : Nat) → (read : List Char) → List Char → Reading String
  | 0, _, _ => .error ⟨.unterminated, fromQuote⟩
  | _ + 1, _, [] => .error ⟨.unterminated, fromQuote⟩
  | fuel + 1, read, c :: rest =>
    if c = '"' then .ok (String.ofList read.reverse, rest)
    else if c = '\\' then
      match rest with
      | [] => .error ⟨.unterminated, fromQuote⟩
      | 'u' :: digits =>
        match hexFour? digits with
        | none => halt .codePoint rest
        | some (high, after) =>
          if isHighSurrogate high then
            match after with
            | '\\' :: 'u' :: more =>
              if more.length < 5 then string? fromQuote fuel (charOf high :: read) after
              else match hexFour? more with
                | none => halt .codePoint ('u' :: more)
                | some (low, after') =>
                  if isLowSurrogate low then
                    let c := Char.ofNat (0x10000 + (high - 0xD800) * 0x400 + (low - 0xDC00))
                    string? fromQuote fuel (c :: read) after'
                  else string? fromQuote fuel (charOf high :: read) after
            | _ => string? fromQuote fuel (charOf high :: read) after
          else string? fromQuote fuel (charOf high :: read) after
      | e :: after =>
        match escaped? e with
        | some d => string? fromQuote fuel (d :: read) after
        | none => halt .escape (c :: rest)
    else if c < ' ' then halt .control (c :: rest)
    else string? fromQuote fuel (c :: read) rest

/-- The decimal number that digits write. -/
def natOf (digits : List Char) : Nat := digits.foldl (fun n c => n * 10 + (c.toNat - 48)) 0

/-- The digits at the front, and what comes after them. -/
def takeDigits (text : List Char) : List Char × List Char :=
  (text.takeWhile Char.isDigit, text.dropWhile Char.isDigit)

/-- A point with digits after it: the digits, and what comes after them. -/
def fraction? (text : List Char) : Option (List Char × List Char) :=
  match text with
  | '.' :: rest => match takeDigits rest with
    | ([], _) => none
    | found => some found
  | _ => none

/-- An exponent: its value, and what comes after it. -/
def exponent? (text : List Char) : Option (Int × List Char) :=
  match text with
  | e :: rest =>
    if e == 'e' || e == 'E' then
      let (negative, rest) : Bool × List Char := match rest with
        | '-' :: rest => (true, rest)
        | '+' :: rest => (false, rest)
        | rest => (false, rest)
      match takeDigits rest with
      | ([], _) => none
      | (digits, rest) => some (if negative then -(natOf digits : Int) else natOf digits, rest)
    else none
  | [] => none

/-- Read a number without its sign. -/
def number? (negative : Bool) (text : List Char) : Option (Json × List Char) :=
  let whole := match takeDigits text with
    | ('0' :: digits, rest) => some (['0'], digits ++ rest)
    | ([], _) => none
    | found => some found
  whole.map fun (digits, rest) =>
    let (decimals, afterPoint) := (fraction? rest).getD ([], rest)
    match exponent? afterPoint with
    | some (exponent, after) =>
      (real (.ofDecimal negative (natOf (digits ++ decimals)) (exponent - decimals.length)), after)
    | none =>
      if decimals.isEmpty then
        (integer (if negative then -(natOf digits : Int) else natOf digits), rest)
      else
        (real (.ofDecimal negative (natOf (digits ++ decimals)) (-(decimals.length : Int))),
          afterPoint)

/-- What comes after `word`, if the text starts with it. -/
def after? (word : List Char) (text : List Char) : Option (List Char) :=
  if word.isPrefixOf text then some (text.drop word.length) else none

/-- The words that stand for values. -/
def constants : List (List Char × Json) :=
  [("null".toList, null), ("true".toList, bool true), ("false".toList, bool false),
   ("NaN".toList, real .nan), ("Infinity".toList, real (.infinite false)),
   ("-Infinity".toList, real (.infinite true))]

/-- Read a value that is neither a string nor an array nor an object. -/
def scalar (text : List Char) : Reading Json :=
  let constant := constants.findSome? fun (word, json) =>
    (after? word text).map fun rest => (json, rest)
  let number := match text with
    | '-' :: rest => number? true rest
    | _ => number? false text
  match constant, number with
  | some found, _ => .ok found
  | none, some found => .ok found
  | none, none => halt .value text

mutual

/-- Read a value. -/
def value : (fuel : Nat) → List Char → Reading Json
  | 0, text => halt .value text
  | fuel + 1, text =>
    match text with
    | '"' :: rest => (string? text.length (rest.length + 1) [] rest).map fun (s, r) => (string s, r)
    | '[' :: rest =>
      match skipSpace rest with
      | ']' :: rest => .ok (array [], rest)
      | rest => items fuel [] rest
    | '\x7b' :: rest =>
      match skipSpace rest with
      | '\x7d' :: rest => .ok (object [], rest)
      | rest => members fuel [] rest
    | _ => scalar text

/-- Read the items of an array after those already read (in reverse). -/
def items : (fuel : Nat) → (read : List Json) → List Char → Reading Json
  | 0, _, text => halt .value text
  | fuel + 1, read, text =>
    match value fuel text with
    | .error halt => .error halt
    | .ok (item, rest) =>
      match skipSpace rest with
      | ']' :: rest => .ok (array (item :: read).reverse, rest)
      | ',' :: rest => items fuel (item :: read) (skipSpace rest)
      | rest => halt .comma rest

/-- Read the members of an object after those already read. -/
def members : (fuel : Nat) → (read : List (String × Json)) → List Char → Reading Json
  | 0, _, text => halt .name text
  | fuel + 1, read, text =>
    match text with
    | '"' :: rest =>
      match string? text.length (rest.length + 1) [] rest with
      | .error halt => .error halt
      | .ok (name, rest) =>
        match skipSpace rest with
        | ':' :: rest =>
          match value fuel (skipSpace rest) with
          | .error halt => .error halt
          | .ok (item, rest) =>
            let read := putMember read name item
            match skipSpace rest with
            | '\x7d' :: rest => .ok (object read, rest)
            | ',' :: rest => members fuel read (skipSpace rest)
            | rest => halt .comma rest
        | rest => halt .colon rest
    | _ => halt .name text

end

/-- Read a text as one value. -/
def parse (text : String) : Except Fault Json :=
  let chars := text.toList
  match chars with
  | '\uFEFF' :: _ => .error ⟨.byteOrderMark, 1, 1, 0⟩
  | _ =>
    match value (2 * chars.length + 2) (skipSpace chars) with
    | .error halt => .error (halt.locate chars)
    | .ok (json, rest) =>
      match skipSpace rest with
      | [] => .ok json
      | rest => .error ((⟨.extra, rest.length⟩ : Halt).locate chars)

end TypeGraft.Json
