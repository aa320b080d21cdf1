import TypeGraft.Text.Alike
import TypeGraft.Text.Blank
import TypeGraft.Text.Word
import TypeGraft.Table

/-!
# Patterns

A `TypeGraft.Pattern` describes texts by a regular expression with groups, and
`TypeGraft.Pattern.match?` matches one at the start of a text.

The matching is by trial: of two alternatives the first one is tried first, a greedy repetition
tries to go on before it tries to stop, a lazy one the other way round. What was captured last
in a group counts. After a round that took nothing a repetition stops.
-/

namespace TypeGraft

namespace Pattern

/-- The classes of characters that have a letter of their own. -/
inductive CharClass where
  | digit
  | word
  | blank
deriving DecidableEq, Repr

/-- Whether a character is of a class, which may be meant for ASCII only. -/
def CharClass.contains (asciiOnly : Bool) : CharClass → Char → Bool
  | digit, c => if asciiOnly then c.isDigit else Text.isDigit c
  | word, c => if asciiOnly then c.isAlphanum || c == '_' else Text.isWord c
  | blank, c =>
    if asciiOnly then c == ' ' || (9 ≤ c.toNat && c.toNat ≤ 13) else Text.isBlank c

/-- A part of a set of characters. -/
inductive SetPart where
  | range (first last : Char)
  | ofClass (cls : CharClass) (asciiOnly negated : Bool)
deriving DecidableEq, Repr

/-- Whether a character is in a part of a set. -/
def SetPart.contains : SetPart → Char → Bool
  | range first last, c => first ≤ c && c ≤ last
  | ofClass cls asciiOnly negated, c => cls.contains asciiOnly c != negated

/-- Which characters count alike. -/
inductive CaseRule where
  | exact
  /-- Capital and small letters do, in ASCII. -/
  | ascii
  /-- Capital and small letters do. -/
  | all
deriving DecidableEq, Repr

/-- The characters that count like one. -/
def CaseRule.likes : CaseRule → Char → List Char
  | exact, c => [c]
  | ascii, c => [c, c.toLower, c.toUpper]
  | all, c => Text.alike c

/-- The form of a character that is compared with what a group took. -/
def CaseRule.folded : CaseRule → Char → Nat
  | exact, c => c.toNat
  | ascii, c => c.toLower.toNat
  | all, c => Text.simpleLower c

/-- A set of characters, or the characters outside of one. -/
structure CharSet where
  parts : List SetPart
  negated : Bool
  case : CaseRule
deriving DecidableEq, Repr

/-- Whether a character is in a set. -/
def CharSet.contains (set : CharSet) (c : Char) : Bool :=
  ((set.case.likes c).any fun d => set.parts.any (·.contains d)) != set.negated

/-- How a repetition goes on. -/
inductive Greed where
  /-- As often as possible. -/
  | greedy
  /-- As rarely as possible. -/
  | lazy
  /-- As often as possible, and never less. -/
  | possessive
deriving DecidableEq, Repr

/-- A place in a text. -/
inductive Anchor where
  | start
  | lineStart
  /-- The end, or in front of a line feed that ends the text. -/
  | stop
  | lineStop
  | end_
  | wordBoundary (asciiOnly : Bool)
  | noWordBoundary (asciiOnly : Bool)
deriving DecidableEq, Repr

/-- A regular expression. -/
inductive Term where
  | empty
  | set (chars : CharSet)
  | anchor (place : Anchor)
  | seq (first second : Term)
  | alt (first second : Term)
  | repetition (item : Term) (least : Nat) (most : Option Nat) (greed : Greed)
  | group (index : Nat) (item : Term)
  /-- What a group took, whose widths are known from the group. -/
  | again (index : Nat) (case : CaseRule) (least : Nat) (most : Option Nat)
  /-- What has to come, or must not come, after this place. -/
  | ahead (negated : Bool) (item : Term)
  /-- What has to come, or must not come, before this place, in `width` characters. -/
  | behind (negated : Bool) (width : Nat) (item : Term)
  | atomic (item : Term)
  /-- One of two, by whether a group took part. -/
  | ifGroup (index : Nat) (yes no : Term)
deriving Repr

/-- The greatest width of a repetition, by that of its item and the number of rounds. -/
def repeatedWidth (most width : Option Nat) : Option Nat :=
  match most, width with
  | _, some 0 => some 0
  | some n, some w => some (n * w)
  | _, _ => none

/-- The least and the greatest number of characters that an expression may take. -/
def Term.width : Term → Nat × Option Nat
  | empty | anchor _ | ahead _ _ | behind _ _ _ => (0, some 0)
  | set _ => (1, some 1)
  | seq a b => (a.width.1 + b.width.1, a.width.2.bind fun m => b.width.2.map (m + ·))
  | alt a b | ifGroup _ a b =>
    (min a.width.1 b.width.1, a.width.2.bind fun m => b.width.2.map (max m ·))
  | repetition item least most _ =>
    (item.width.1 * least, repeatedWidth most item.width.2)
  | group _ item | atomic item => item.width
  | again _ _ least most => (least, most)

end Pattern

/-- A regular expression with its groups. -/
structure Pattern where
  /-- The expression as it is written. -/
  source : String
  term : Pattern.Term
  /-- The number of groups. -/
  groups : Nat
  /-- The groups that have names. -/
  names : Table String Nat
deriving Repr

namespace Pattern

/-- A place in a match: the text before it in reverse, the text after it, and what the groups
captured. -/
structure Spot where
  before : List Char
  rest : List Char
  captures : Table Nat (List Char)

/-- Whether an anchor holds at a place. -/
def Anchor.holds (place : Anchor) (spot : Spot) : Bool :=
  let isWordAt (asciiOnly : Bool) (text : List Char) : Bool :=
    text.head?.any (CharClass.word.contains asciiOnly)
  let boundary (asciiOnly : Bool) : Bool :=
    isWordAt asciiOnly spot.before != isWordAt asciiOnly spot.rest
  match place with
  | start => spot.before.isEmpty
  | lineStart => spot.before.isEmpty || spot.before.head? == some '\n'
  | stop => spot.rest.isEmpty || spot.rest == ['\n']
  | lineStop => spot.rest.isEmpty || spot.rest.head? == some '\n'
  | end_ => spot.rest.isEmpty
  | wordBoundary asciiOnly => boundary asciiOnly
  | noWordBoundary asciiOnly => !boundary asciiOnly && !(spot.before.isEmpty && spot.rest.isEmpty)

/-- Take a text that stands at a place. -/
def takeText (case : CaseRule) : List Char → Spot → Option Spot
  | [], spot => some spot
  | c :: text, spot =>
    match spot.rest with
    | d :: rest =>
      if case.folded d = case.folded c then
        takeText case text { spot with before := d :: spot.before, rest }
      else none
    | [] => none

/-- Move a place back by some characters. -/
def stepBack : Nat → Spot → Option Spot
  | 0, spot => some spot
  | n + 1, spot =>
    match spot.before with
    | c :: before => stepBack n { spot with before, rest := c :: spot.rest }
    | [] => none

/-- Match an expression at a place and go on with `next`, nesting at most `depth` steps. -/
def run : (depth : Nat) → Term → Spot → (next : Spot → Option Spot) → Option Spot
  | 0, _, _, _ => none
  | depth + 1, term, spot, next =>
    match term with
    | .empty => next spot
    | .set chars =>
      match spot.rest with
      | c :: rest =>
        if chars.contains c then next { spot with before := c :: spot.before, rest } else none
      | [] => none
    | .anchor place => if place.holds spot then next spot else none
    | .seq first second => run depth first spot fun spot => run depth second spot next
    | .alt first second => (run depth first spot next).or (run depth second spot next)
    | .group index item =>
      run depth item spot fun after =>
        let taken := (after.before.take (after.before.length - spot.before.length)).reverse
        next { after with captures := after.captures.put index taken }
    | .again index case _ _ =>
      match spot.captures.get? index with
      | some text => (takeText case text spot).bind next
      | none => none
    | .ahead negated item =>
      match run depth item spot some with
      | some after => if negated then none else next { spot with captures := after.captures }
      | none => if negated then next spot else none
    | .behind negated width item =>
      match (stepBack width spot).bind fun back => run depth item back some with
      | some after => if negated then none else next { spot with captures := after.captures }
      | none => if negated then next spot else none
    | .atomic item => (run depth item spot some).bind next
    | .ifGroup index yes no =>
      if spot.captures.has index then run depth yes spot next else run depth no spot next
    | .repetition item least most greed =>
      let more (next : Spot → Option Spot) : Option Spot :=
        if most = some 0 then none
        else
          run depth item spot fun after =>
            if least = 0 && after.rest.length == spot.rest.length then next after
            else run depth (.repetition item (least - 1) (most.map (· - 1)) greed) after next
      match greed with
      | .greedy => (more next).or (if least = 0 then next spot else none)
      | .lazy => (if least = 0 then next spot else none).or (more next)
      | .possessive =>
        match if most = some 0 then none else run depth item spot some with
        | some after =>
          if least = 0 && after.rest.length == spot.rest.length then next after
          else run depth (.repetition item (least - 1) (most.map (· - 1)) greed) after next
        | none => if least = 0 then next spot else none

/-- The number of parts of an expression. -/
def Term.size : Term → Nat
  | empty | set _ | anchor _ | again .. => 1
  | seq a b | alt a b | ifGroup _ a b => a.size + b.size + 1
  | repetition item least _ _ => item.size + least + 1
  | group _ item | ahead _ item | behind _ _ item | atomic item => item.size + 1

/-- Match a pattern at the start of a text. -/
def match? (p : Pattern) (text : String) : Option Spot :=
  let chars := text.toList
  run ((chars.length + 2) * (p.term.size + 2) * 2) p.term ⟨[], chars, []⟩ some

end Pattern

end TypeGraft
