import TypeGraft.Pattern.Basic

/-!
# Reading patterns

`TypeGraft.Pattern.ofString?` reads a regular expression. It is refused where a bracket is not
closed, where there is nothing to repeat or a repetition is repeated, where a letter is escaped
that has no meaning, and where a group is named that there is not.

An escape that gives a character by its name, as `\N{EM DASH}` does, is refused too. To read it
would take the table of all names of characters.
-/

namespace TypeGraft.Pattern

/-- The options that letters set. -/
structure Options where
  foldsCase : Bool := false
  multiline : Bool := false
  dotAll : Bool := false
  /-- Whether blanks and comments are passed over. -/
  verbose : Bool := false
  asciiOnly : Bool := false
deriving DecidableEq, Repr

/-- Which characters count alike. -/
def Options.case (options : Options) : CaseRule :=
  if !options.foldsCase then .exact else if options.asciiOnly then .ascii else .all

/-- The state of a reading. -/
structure Groups where
  /-- The number of groups. -/
  count : Nat
  /-- The groups that have names. -/
  names : Table String Nat
  /-- The groups that are not closed yet. -/
  unclosed : List Nat
  /-- The least and the greatest widths of the groups that are closed. -/
  widths : Table Nat (Nat × Option Nat)
  /-- The number of groups where the outermost look behind began, inside of one. -/
  behind : Option Nat
  /-- The greatest group that a condition names. -/
  named : Nat

/-- Whether a group is closed, and not by the look behind that it is used in. -/
def Groups.isUsable (groups : Groups) (index : Nat) : Bool :=
  index ≤ groups.count && !groups.unclosed.contains index && groups.behind.all (index ≤ ·)

/-- What a group took, as an expression. -/
def Groups.again (groups : Groups) (options : Options) (index : Nat) : Term :=
  let (least, most) := (groups.widths.get? index).getD (0, none)
  .again index options.case least most

/-- What was read, what is left to read, and the groups; none if the expression is refused. -/
abbrev Reading (α : Type) := Option (α × List Char × Groups)

/-- A single character as an expression. -/
def charTerm (options : Options) (c : Char) : Term :=
  .set ⟨[.range c c], false, options.case⟩

/-- Whether a character is an octal digit. -/
def isOctal (c : Char) : Bool := '0' ≤ c && c ≤ '7'

/-- Whether a character is an ASCII letter. -/
def isLetter (c : Char) : Bool := ('a' ≤ c && c ≤ 'z') || ('A' ≤ c && c ≤ 'Z')

/-- The number that digits of a base write. -/
def numberOf (base : Nat) (digits : List Char) : Nat :=
  digits.foldl (fun n c =>
    n * base + (if c.isDigit then c.toNat - 48 else c.toLower.toNat - 87)) 0

/-- The hexadecimal digits at the front, if there are `count` of them. -/
def hexDigits? (count : Nat) (text : List Char) : Option (Char × List Char) :=
  let digits := (text.take count).takeWhile fun c =>
    c.isDigit || ('a' ≤ c.toLower && c.toLower ≤ 'f')
  if digits.length == count then
    let n := numberOf 16 digits
    if h : n.isValidChar then some (Char.ofNatAux n h, text.drop count) else none
  else none

/-- The letters that stand for a character behind a backslash. -/
def escapeLetter? : Char → Option Char
  | 'a' => some '\x07'
  | 'f' => some '\x0c'
  | 'n' => some '\n'
  | 'r' => some '\r'
  | 't' => some '\t'
  | 'v' => some '\x0b'
  | _ => none

/-- The letters that stand for a class of characters behind a backslash. -/
def classLetter? (options : Options) : Char → Option SetPart
  | 'd' => some (.ofClass .digit options.asciiOnly false)
  | 'D' => some (.ofClass .digit options.asciiOnly true)
  | 'w' => some (.ofClass .word options.asciiOnly false)
  | 'W' => some (.ofClass .word options.asciiOnly true)
  | 's' => some (.ofClass .blank options.asciiOnly false)
  | 'S' => some (.ofClass .blank options.asciiOnly true)
  | _ => none

/-- The letters that stand for a place behind a backslash. -/
def anchorLetter? (options : Options) : Char → Option Anchor
  | 'A' => some .start
  | 'Z' => some .end_
  | 'b' => some (.wordBoundary options.asciiOnly)
  | 'B' => some (.noWordBoundary options.asciiOnly)
  | _ => none

/-- The character that an escape with digits stands for. -/
def codeEscape? (c : Char) (rest : List Char) : Option (Char × List Char) :=
  match c with
  | 'x' => hexDigits? 2 rest
  | 'u' => hexDigits? 4 rest
  | 'U' => hexDigits? 8 rest
  | _ => none

/-- The character behind a backslash that has no other meaning. -/
def plainEscape? (c : Char) (rest : List Char) : Option (Char × List Char) :=
  match escapeLetter? c with
  | some d => some (d, rest)
  | none =>
    if isLetter c then codeEscape? c rest
    else some (c, rest)

/-- Read an escape outside of brackets, behind its backslash. Digits refer to a group, unless
they are three octal ones or start with a zero. -/
def escape? (options : Options) (text : List Char) (groups : Groups) : Reading Term :=
  match text with
  | [] => none
  | c :: rest =>
    match classLetter? options c, anchorLetter? options c with
    | some part, _ => some (.set ⟨[part], false, .exact⟩, rest, groups)
    | none, some place => some (.anchor place, rest, groups)
    | none, none =>
      if c = '0' then
        let digits := (rest.take 2).takeWhile isOctal
        some (charTerm options (Char.ofNat (numberOf 8 digits)), rest.drop digits.length, groups)
      else if c.isDigit then
        let two := (rest.take 1).takeWhile Char.isDigit
        let three := (text.take 3).takeWhile isOctal
        if three.length == 3 then
          let n := numberOf 8 three
          if n ≤ 0o377 then some (charTerm options (Char.ofNat n), text.drop 3, groups) else none
        else
          let n := numberOf 10 (c :: two)
          if groups.isUsable n then some (groups.again options n, rest.drop two.length, groups)
          else none
      else
        (plainEscape? c rest).map fun (d, rest) => (charTerm options d, rest, groups)

/-- Read an escape in brackets, behind its backslash. -/
def setEscape? (options : Options) (text : List Char) : Option (SetPart × List Char) :=
  match text with
  | [] => none
  | c :: rest =>
    match classLetter? options c with
    | some part => some (part, rest)
    | none =>
      if c = 'b' then some (.range '\x08' '\x08', rest)
      else if isOctal c then
        let digits := (text.take 3).takeWhile isOctal
        let n := numberOf 8 digits
        if n ≤ 0o377 then some (.range (Char.ofNat n) (Char.ofNat n), text.drop digits.length)
        else none
      else if c.isDigit then none
      else (plainEscape? c rest).map fun (d, rest) => (.range d d, rest)

/-- Read one character or class in brackets. -/
def setItem? (options : Options) (text : List Char) : Option (SetPart × List Char) :=
  match text with
  | [] => none
  | '\\' :: rest => setEscape? options rest
  | c :: rest => some (.range c c, rest)

/-- Read the rest of a set in brackets, after the parts already read (in reverse). The first
part may be a closing bracket. -/
def setRest? (options : Options) : (fuel : Nat) → (isFirst : Bool) → (read : List SetPart) →
    List Char → Option (List SetPart × List Char)
  | 0, _, _, _ => none
  | _ + 1, _, _, [] => none
  | fuel + 1, isFirst, read, c :: rest =>
    if c = ']' && !isFirst then some (read.reverse, rest)
    else
      match setItem? options (c :: rest) with
      | none => none
      | some (part, after) =>
        match after with
        | '-' :: ']' :: after => some ((.range '-' '-' :: part :: read).reverse, after)
        | '-' :: after =>
          match part, setItem? options after with
          | .range a _, some (.range b _, after) =>
            if a ≤ b then setRest? options fuel false (.range a b :: read) after else none
          | _, _ => none
        | after => setRest? options fuel false (part :: read) after

/-- A number in decimal digits at the front, if any. -/
def decimal? (text : List Char) : Option Nat × List Char :=
  match text.takeWhile Char.isDigit with
  | [] => (none, text)
  | digits => (some (numberOf 10 digits), text.dropWhile Char.isDigit)

/-- How often something is repeated: the least and the greatest number of times. -/
abbrev Bounds := Nat × Option Nat

/-- Bounds in braces, behind the opening one. What is not of this form is no repetition. -/
def bounds? (text : List Char) : Option (Bounds × List Char) :=
  match text with
  | '\x7d' :: _ => none
  | _ =>
    let (least, rest) := decimal? text
    match rest with
    | ',' :: rest =>
      let (most, rest) := decimal? rest
      match rest with
      | '\x7d' :: rest => some ((least.getD 0, most), rest)
      | _ => none
    | '\x7d' :: rest => some ((least.getD 0, some (least.getD 0)), rest)
    | _ => none

/-- The bounds of a repetition at the front. -/
def repetition? (text : List Char) : Option (Bounds × List Char) :=
  match text with
  | '*' :: rest => some ((0, none), rest)
  | '+' :: rest => some ((1, none), rest)
  | '?' :: rest => some ((0, some 1), rest)
  | '\x7b' :: rest => bounds? rest
  | _ => none

/-- How a repetition goes on, by the sign behind it. -/
def greed (text : List Char) : Greed × List Char :=
  match text with
  | '?' :: rest => (.lazy, rest)
  | '+' :: rest => (.possessive, rest)
  | rest => (.greedy, rest)

/-- Pass over what does not count: comments in parentheses and, where the options say so, blanks
and what comes behind a number sign on its line. -/
def skipIgnored (options : Options) : (fuel : Nat) → List Char → List Char
  | 0, text => text
  | fuel + 1, text =>
    match text with
    | '(' :: '?' :: '#' :: rest =>
      match rest.dropWhile (· != ')') with
      | _ :: after => skipIgnored options fuel after
      | [] => text
    | c :: rest =>
      if !options.verbose then text
      else if CharClass.blank.contains true c then skipIgnored options fuel rest
      else if c = '#' then skipIgnored options fuel ((rest.dropWhile (· != '\n')).drop 1)
      else text
    | [] => []

/-- An item with the repetition that it has behind it. There is at most one, and only if the item
may be repeated. -/
def repeated? (options : Options) (repeatable : Bool) (item : Term) (text : List Char) :
    Option (Term × List Char) :=
  match repetition? text with
  | none => some (item, text)
  | some ((least, most), rest) =>
    if !repeatable || most.any (· < least) then none
    else
      let (greed, rest) := greed rest
      let rest := skipIgnored options rest.length rest
      if (repetition? rest).isSome then none else some (.repetition item least most greed, rest)

/-- Whether a text starts with an expression for a place, which may not be repeated. -/
def startsAnchor (text : List Char) : Bool :=
  match text with
  | '^' :: _ | '$' :: _ => true
  | '\\' :: c :: _ => c = 'A' || c = 'Z' || c = 'b' || c = 'B'
  | _ => false

/-- Whether a text is a name. -/
def isName (name : List Char) : Bool :=
  match name with
  | c :: rest => Text.isWord c && !Text.isDigit c && rest.all Text.isWord
  | [] => false

/-- The value of a decimal digit of any script. -/
def digitValue? (c : Char) : Option Nat :=
  (Text.digits.find? fun run => run.1 ≤ c.toNat && c.toNat ≤ run.2).map fun run =>
    (c.toNat - run.1) % 10

/-- Read digits of any script after `n` was read. A low line may stand between two digits. -/
def digitsFrom? : (n : Nat) → (afterDigit : Bool) → List Char → Option Nat
  | n, afterDigit, [] => if afterDigit then some n else none
  | n, afterDigit, c :: rest =>
    if c = '_' then if afterDigit then digitsFrom? n false rest else none
    else (digitValue? c).bind fun value => digitsFrom? (n * 10 + value) true rest

/-- The number that a text names a group by. Blanks around it do not count, and it may have a
sign. -/
def wholeNumber? (text : List Char) : Option Nat :=
  match Text.trim text with
  | '+' :: digits => digitsFrom? 0 false digits
  | '-' :: digits => (digitsFrom? 0 false digits).filter (· = 0)
  | digits => digitsFrom? 0 false digits

/-- Set or clear the option of a letter. -/
def Options.set (options : Options) (value : Bool) (letter : Char) : Options :=
  match letter with
  | 'i' => { options with foldsCase := value }
  | 'm' => { options with multiline := value }
  | 's' => { options with dotAll := value }
  | 'x' => { options with verbose := value }
  | 'a' => { options with asciiOnly := value }
  | 'u' => { options with asciiOnly := !value }
  | _ => options

/-- Whether a character is the letter of an option. -/
def isOptionLetter (c : Char) : Bool := ['i', 'm', 's', 'x', 'a', 'u'].contains c

/-- The options after some letters in front of a closing parenthesis, and what comes behind
it. -/
def optionsForAll? (options : Options) (text : List Char) : Option (Options × List Char) :=
  let letters := text.takeWhile isOptionLetter
  match text.dropWhile isOptionLetter with
  | ')' :: rest =>
    if letters.isEmpty || (letters.contains 'a' && letters.contains 'u') then none
    else some (letters.foldl (Options.set · true) options, rest)
  | _ => none

/-- The options after some letters in front of a colon, and what comes behind it. Letters behind
a minus sign clear options; none may be both set and cleared. -/
def optionsForGroup? (options : Options) (text : List Char) : Option (Options × List Char) :=
  let added := text.takeWhile isOptionLetter
  let isClash := added.contains 'a' && added.contains 'u'
  let options := added.foldl (Options.set · true) options
  match text.dropWhile isOptionLetter with
  | ':' :: rest => if added.isEmpty || isClash then none else some (options, rest)
  | '-' :: rest =>
    let cleared := rest.takeWhile isOptionLetter
    let isRefused := cleared.isEmpty || cleared.any fun c => c = 'a' || c = 'u' || added.contains c
    match rest.dropWhile isOptionLetter with
    | ':' :: rest =>
      if isClash || isRefused then none
      else some (cleared.foldl (Options.set · false) options, rest)
    | _ => none
  | _ => none

/-- Close a group. -/
def close (index : Nat) (r : Term × List Char × Groups) : Reading Term :=
  match r with
  | (item, ')' :: rest, groups) =>
    some (.group index item, rest,
      { groups with
        unclosed := groups.unclosed.erase index
        widths := groups.widths.put index item.width })
  | _ => none

/-- Close parentheses around an item that is no group. -/
def closeWith (build : Term → Option Term) (r : Term × List Char × Groups) : Reading Term :=
  match r with
  | (item, ')' :: rest, groups) => (build item).map fun term => (term, rest, groups)
  | _ => none

/-- Begin to look behind. -/
def Groups.lookBehind (groups : Groups) : Groups :=
  { groups with behind := some (groups.behind.getD groups.count) }

/-- Go on after a look behind, with what was known of an outer one. -/
def lookedBehind (behind : Option Nat) (r : Term × List Char × Groups) : Reading Term :=
  match r with
  | (item, rest, groups) => some (item, rest, { groups with behind })

/-- What has to come before a place, if its width is fixed. -/
def behind? (negated : Bool) (item : Term) : Option Term :=
  match item.width with
  | (least, some most) => if least = most then some (.behind negated least item) else none
  | _ => none

/-- Open a group. -/
def Groups.begin_ (groups : Groups) : Groups × Nat :=
  let index := groups.count + 1
  ({ groups with count := index, unclosed := index :: groups.unclosed }, index)

mutual

/-- Read alternatives. -/
def alternatives? : (fuel : Nat) → Options → List Char → Groups → Reading Term
  | 0, _, _, _ => none
  | fuel + 1, options, text, groups =>
    match sequence? fuel options text groups with
    | some (first, '|' :: rest, groups) =>
      (alternatives? fuel options rest groups).map fun (second, r) => (.alt first second, r)
    | found => found

/-- Read items up to a bar, a closing parenthesis or the end. -/
def sequence? : (fuel : Nat) → Options → List Char → Groups → Reading Term
  | 0, _, _, _ => none
  | fuel + 1, options, text, groups =>
    match skipIgnored options text.length text with
    | [] => some (.empty, [], groups)
    | c :: rest =>
      if c = '|' || c = ')' then some (.empty, c :: rest, groups)
      else
        let repeatable := !startsAnchor (c :: rest)
        match item? fuel options (c :: rest) groups with
        | none => none
        | some (item, rest, groups) =>
          match repeated? options repeatable item (skipIgnored options rest.length rest) with
          | none => none
          | some (item, rest) =>
            (sequence? fuel options rest groups).map fun (more, r) => (.seq item more, r)

/-- Read one item. -/
def item? : (fuel : Nat) → Options → List Char → Groups → Reading Term
  | 0, _, _, _ => none
  | fuel + 1, options, text, groups =>
    match text with
    | [] => none
    | '(' :: rest => parenthesized? fuel options rest groups
    | '[' :: '^' :: rest =>
      (setRest? options (rest.length + 1) true [] rest).map fun (parts, rest) =>
        (.set ⟨parts, true, options.case⟩, rest, groups)
    | '[' :: rest =>
      (setRest? options (rest.length + 1) true [] rest).map fun (parts, rest) =>
        (.set ⟨parts, false, options.case⟩, rest, groups)
    | '.' :: rest =>
      let excluded := if options.dotAll then [] else [SetPart.range '\n' '\n']
      some (.set ⟨excluded, true, .exact⟩, rest, groups)
    | '^' :: rest => some (.anchor (if options.multiline then .lineStart else .start), rest, groups)
    | '$' :: rest => some (.anchor (if options.multiline then .lineStop else .stop), rest, groups)
    | '\\' :: rest => escape? options rest groups
    | c :: rest =>
      if (repetition? (c :: rest)).isSome then none else some (charTerm options c, rest, groups)

/-- Read what stands in parentheses, behind the opening one. -/
def parenthesized? : (fuel : Nat) → Options → List Char → Groups → Reading Term
  | 0, _, _, _ => none
  | fuel + 1, options, text, groups =>
    match text with
    | '?' :: ':' :: rest => (alternatives? fuel options rest groups).bind (closeWith some)
    | '?' :: '=' :: rest =>
      (alternatives? fuel options rest groups).bind (closeWith fun t => some (.ahead false t))
    | '?' :: '!' :: rest =>
      (alternatives? fuel options rest groups).bind (closeWith fun t => some (.ahead true t))
    | '?' :: '<' :: '=' :: rest =>
      ((alternatives? fuel options rest groups.lookBehind).bind
        (closeWith (behind? false))).bind (lookedBehind groups.behind)
    | '?' :: '<' :: '!' :: rest =>
      ((alternatives? fuel options rest groups.lookBehind).bind
        (closeWith (behind? true))).bind (lookedBehind groups.behind)
    | '?' :: '>' :: rest =>
      (alternatives? fuel options rest groups).bind (closeWith fun t => some (.atomic t))
    | '?' :: 'P' :: '<' :: rest =>
      let name := rest.takeWhile (· != '>')
      let known := groups.names.has (String.ofList name)
      match rest.dropWhile (· != '>') with
      | _ :: rest =>
        if !isName name || known then none
        else
          let (groups, index) := groups.begin_
          let groups := { groups with names := groups.names.put (String.ofList name) index }
          (alternatives? fuel options rest groups).bind (close index)
      | [] => none
    | '?' :: 'P' :: '=' :: rest =>
      match rest.dropWhile (· != ')'),
          groups.names.get? (String.ofList (rest.takeWhile (· != ')'))) with
      | _ :: rest, some index =>
        if groups.isUsable index then some (groups.again options index, rest, groups) else none
      | _, _ => none
    | '?' :: '(' :: rest =>
      let reference := rest.takeWhile (· != ')')
      let index :=
        if isName reference then groups.names.get? (String.ofList reference)
        else wholeNumber? reference
      match rest.dropWhile (· != ')'), index with
      | _ :: rest, some index =>
        if index = 0 || !(groups.behind.isNone || groups.isUsable index) then none
        else
          let groups := { groups with named := max groups.named index }
          match sequence? fuel options rest groups with
          | some (yes, '|' :: rest, groups) =>
            match sequence? fuel options rest groups with
            | some (no, ')' :: rest, groups) => some (.ifGroup index yes no, rest, groups)
            | _ => none
          | some (yes, ')' :: rest, groups) => some (.ifGroup index yes .empty, rest, groups)
          | _ => none
      | _, _ => none
    | '?' :: rest =>
      match optionsForGroup? options rest with
      | some (options, rest) => (alternatives? fuel options rest groups).bind (closeWith some)
      | none => none
    | rest =>
      let (groups, index) := groups.begin_
      (alternatives? fuel options rest groups).bind (close index)

end

/-- The options that stand in parentheses at the front of an expression. -/
def leadingOptions : (fuel : Nat) → Options → List Char → Options × List Char
  | 0, options, text => (options, text)
  | fuel + 1, options, text =>
    match skipIgnored options text.length text with
    | '(' :: '?' :: rest =>
      match optionsForAll? options rest with
      | some (options, rest) => leadingOptions fuel options rest
      | none => (options, text)
    | _ => (options, text)

/-- Read a regular expression. -/
def ofString? (source : String) : Option Pattern :=
  let chars := source.toList
  let (options, text) := leadingOptions chars.length {} chars
  match alternatives? (4 * chars.length + 4) options text ⟨0, [], [], [], none, 0⟩ with
  | some (term, [], groups) =>
    if groups.named ≤ groups.count then some ⟨source, term, groups.count, groups.names⟩ else none
  | _ => none

end TypeGraft.Pattern
