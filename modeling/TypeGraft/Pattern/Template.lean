import TypeGraft.Pattern.Reader

/-!
# Templates

A template says what to put in the place of a match: text, and the groups of the match.
`TypeGraft.Pattern.fill` fills in a template.

A group is named by a backslash and its number or by `\g` with its number or name in angle
brackets. A group that took no part in the match leaves nothing. Digits that start with a zero,
and three octal ones, stand for a character.
-/

namespace TypeGraft.Pattern

/-- A part of a template. -/
inductive TemplatePart where
  | text (chars : List Char)
  | group (index : Nat)
deriving DecidableEq, Repr

/-- What may be wrong with a template. -/
inductive TemplateProblem where
  /-- It is not well-formed, or a number is not that of a group. -/
  | malformed
  /-- A name is not that of a group. -/
  | unknownName
deriving DecidableEq, Repr

/-- The group that is named in angle brackets, by its name or its number. -/
def namedGroup (p : Pattern) (name : List Char) : Except TemplateProblem Nat :=
  if isName name then
    match p.names.get? (String.ofList name) with
    | some index => .ok index
    | none => .error .unknownName
  else
    match wholeNumber? name with
    | some index => if index ≤ p.groups then .ok index else .error .malformed
    | none => .error .malformed

/-- Read a template, of which at most `fuel` characters are left. -/
def readTemplate (p : Pattern) :
    (fuel : Nat) → List Char → Except TemplateProblem (List TemplatePart)
  | 0, _ => .ok []
  | _ + 1, [] => .ok []
  | _ + 1, ['\\'] => .error .malformed
  | fuel + 1, '\\' :: c :: rest =>
    let goOn (part : TemplatePart) (rest : List Char) :
        Except TemplateProblem (List TemplatePart) :=
      (readTemplate p fuel rest).map (part :: ·)
    if c = 'g' then
      match rest with
      | '<' :: rest =>
        match rest.dropWhile (· != '>') with
        | _ :: after =>
          match namedGroup p (rest.takeWhile (· != '>')) with
          | .ok index => goOn (.group index) after
          | .error problem => .error problem
        | [] => .error .malformed
      | _ => .error .malformed
    else if c = '0' then
      let digits := (rest.take 2).takeWhile isOctal
      goOn (.text [Char.ofNat (numberOf 8 digits % 256)]) (rest.drop digits.length)
    else if c.isDigit then
      let three := ((c :: rest).take 3).takeWhile isOctal
      if three.length == 3 then
        let n := numberOf 8 three
        if n ≤ 0o377 then goOn (.text [Char.ofNat n]) (rest.drop 2) else .error .malformed
      else
        let more := (rest.take 1).takeWhile Char.isDigit
        let index := numberOf 10 (c :: more)
        if index ≤ p.groups then goOn (.group index) (rest.drop more.length)
        else .error .malformed
    else
      match escapeLetter? c with
      | some d => goOn (.text [d]) rest
      | none =>
        if c = 'b' then goOn (.text ['\x08']) rest
        else if c = '\\' then goOn (.text ['\\']) rest
        else if isLetter c then .error .malformed
        else goOn (.text ['\\', c]) rest
  | fuel + 1, c :: rest => (readTemplate p fuel rest).map (.text [c] :: ·)

/-- The text of a part of a template, for a match that ended at a place. -/
def TemplatePart.fill (matched : Spot) : TemplatePart → List Char
  | text chars => chars
  | group 0 => matched.before.reverse
  | group index => (matched.captures.get? index).getD []

/-- Put a template in the place of a match at the start of a text. -/
def fill (p : Pattern) (template : String) (matched : Spot) : Except TemplateProblem String :=
  let chars := template.toList
  (readTemplate p chars.length chars).map fun parts =>
    String.ofList (parts.flatMap (·.fill matched) ++ matched.rest)

end TypeGraft.Pattern
