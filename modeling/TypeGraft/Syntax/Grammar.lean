import TypeGraft.Syntax.Lexeme

/-!
# Grammars and their reading

A `TypeGraft.Syntax.Grammar` over rules `ρ` is a value, and `Grammar.run` reads a script by
it. Alternatives are ordered: the first one that matches is taken, and a repetition takes all
it can.

* `TypeGraft.Syntax.Grammar`: the operators from which rules are built.
* `TypeGraft.Syntax.Outcome`: a reading succeeds with nodes and a position, or refuses, or
  has used up its allowance of nested steps.
* `TypeGraft.Syntax.Grammar.run`: the reading.

**Where comments go.** A token comes with the comments in front of it. A node takes the
comments among its parts, and leaves those in front of its first token to whatever holds the
node (`Grammar.node`). So every comment ends up in the smallest node that stands on both
sides of it.

**Where statements end.** A statement ends at a semicolon; failing that, in front of a
closing brace, at the end of the script or at a line break. In the second case the comments
that still stand on its line belong to it (`Grammar.terminator`).
-/

namespace TypeGraft.Syntax

/-- A grammar whose rules are named by `ρ`. -/
inductive Grammar (ρ : Type) where
  /-- Nothing. -/
  | empty
  /-- A lexeme after any trivia, as a leaf of a kind. -/
  | leaf (kind : Kind) (lexeme : Lexeme)
  /-- A lexeme that stands right here, as a leaf of a kind. -/
  | raw (kind : Kind) (lexeme : Lexeme)
  /-- One after the other. -/
  | seq (first second : Grammar ρ)
  /-- The first, or else the second. -/
  | alt (first second : Grammar ρ)
  /-- As often as possible, never included. -/
  | many (item : Grammar ρ)
  /-- A check that reads nothing. -/
  | ahead (item : Grammar ρ)
  /-- A check that something does not stand here. -/
  | absent (item : Grammar ρ)
  /-- A check that the next token stands on the same line as the last one. -/
  | sameLine
  /-- The end of a statement. -/
  | terminator
  /-- The parts, gathered in a node. -/
  | node (kind : Kind) (parts : Grammar ρ)
  /-- The parts, in a role. -/
  | labelled (field : Field) (parts : Grammar ρ)
  /-- A first operand and any number of further steps, each of which reads one node and takes
  what was read before as its first child. -/
  | chain (operand step : Grammar ρ)
  /-- What a rule says. -/
  | rule (name : ρ)

/-- What a reading comes to. -/
inductive Outcome where
  /-- Nodes were read, and the reading goes on at a position. -/
  | read (nodes : List Node) (cursor : Cursor)
  /-- What is looked for does not stand here. -/
  | refused
  /-- The allowance of nested steps is used up. -/
  | exhausted

namespace Outcome

/-- Go on after a success. -/
def andThen (first : Outcome) (next : List Node → Cursor → Outcome) : Outcome :=
  match first with
  | read nodes cursor => next nodes cursor
  | refused => refused
  | exhausted => exhausted

/-- Repeat a reading, at most `limit` times, until it refuses or makes no progress. -/
def many (item : Cursor → Outcome) : (limit : Nat) → Cursor → Outcome
  | 0, _ => exhausted
  | limit + 1, c =>
    match item c with
    | read nodes d =>
      if d.offset == c.offset then read nodes d
      else (many item limit d).andThen fun more e => read (nodes ++ more) e
    | refused => read [] c
    | exhausted => exhausted

end Outcome

namespace Node

/-- The comments at the front of a list of nodes, and what comes after them. -/
def splitComments (nodes : List Node) : List Node × List Node :=
  (nodes.takeWhile isComment, nodes.dropWhile isComment)

/-- The role in which a node holds the operand that it was built upon. -/
def operandField : Kind → Option Field
  | .call => some .function
  | .genericType => some .name
  | _ => none

/-- Gather parts in a node that ends at `stop`. The comments in front of the first part stay
outside. -/
def gather (kind : Kind) (parts : List Node) (stop : Nat) : List Node :=
  let (before, parts) := splitComments parts
  let start := match parts with
    | part :: _ => part.span.start
    | [] => (stop : Int)
  before ++ [.mk kind none ⟨start, stop⟩ parts]

/-- Put `operand` as first child into the node that ends `step`; comments that stand in
front of that node come with it. -/
def extend (operand : Node) (step : List Node) : Node :=
  let (before, rest) := splitComments step
  match rest with
  | .mk kind field span children :: _ =>
    .mk kind field ⟨operand.span.start, span.stop⟩
      (operand.withField (operandField kind) :: before ++ children)
  | [] => operand

/-- Give the nodes that are not comments a role. -/
def label (field : Field) (nodes : List Node) : List Node :=
  nodes.map fun n => if n.isComment then n else n.withField (some field)

end Node

namespace Outcome

/-- Repeat a reading, at most `limit` times, each time building upon `operand`. -/
def chain (step : Cursor → Outcome) (before : List Node) :
    (limit : Nat) → (operand : Node) → Cursor → Outcome
  | 0, _, _ => exhausted
  | limit + 1, operand, c =>
    match step c with
    | read nodes d =>
      if d.offset == c.offset then read (before ++ [operand]) c
      else chain step before limit (operand.extend nodes) d
    | refused => read (before ++ [operand]) c
    | exhausted => exhausted

end Outcome

namespace Grammar

variable {ρ : Type}

/-- Read a lexeme at a position, as a leaf after `comments`. -/
def readLeaf (kind : Kind) (lexeme : Lexeme) (comments : List Node) (c : Cursor) : Outcome :=
  match lexeme.length? c.rest with
  | none => .refused
  | some count =>
    let d := c.advance count
    .read (comments ++ [.mk kind none (c.spanTo d) []]) d

/-- The end of a statement that no semicolon marks: the comments on its line belong to it. -/
def endOfLine (c : Cursor) : Outcome :=
  match Trivia.upToLineBreak c with
  | none => .refused
  | some trivia => .read trivia.comments trivia.afterComments

/-- Read the end of a statement. -/
def endOfStatement (c : Cursor) : Outcome :=
  match Trivia.upToToken c with
  | none => .refused
  | some trivia =>
    match trivia.cursor.rest with
    | g :: _ =>
      if g.char = ';' then readLeaf (.token ";") (.sign ";") trivia.comments trivia.cursor
      else if g.char = '\x7d' || trivia.crossesLine then endOfLine c
      else .refused
    | [] => endOfLine c

/-- Read by a grammar, nesting at most `depth` steps. -/
def run (rules : ρ → Grammar ρ) : (depth : Nat) → Grammar ρ → Cursor → Outcome
  | 0, _, _ => .exhausted
  | _ + 1, empty, c => .read [] c
  | _ + 1, leaf kind lexeme, c =>
    match Trivia.upToToken c with
    | none => .refused
    | some trivia => readLeaf kind lexeme trivia.comments trivia.cursor
  | _ + 1, raw kind lexeme, c => readLeaf kind lexeme [] c
  | depth + 1, seq first second, c =>
    (run rules depth first c).andThen fun nodes d =>
      (run rules depth second d).andThen fun more e => .read (nodes ++ more) e
  | depth + 1, alt first second, c =>
    match run rules depth first c with
    | .refused => run rules depth second c
    | outcome => outcome
  | depth + 1, many item, c => Outcome.many (run rules depth item) (c.rest.length + 1) c
  | depth + 1, ahead item, c => (run rules depth item c).andThen fun _ _ => .read [] c
  | depth + 1, absent item, c =>
    match run rules depth item c with
    | .read _ _ => .refused
    | .refused => .read [] c
    | .exhausted => .exhausted
  | _ + 1, sameLine, c =>
    match Trivia.upToToken c with
    | none => .refused
    | some trivia => if trivia.crossesLine then .refused else .read [] c
  | _ + 1, terminator, c => endOfStatement c
  | depth + 1, node kind parts, c =>
    (run rules depth parts c).andThen fun nodes d => .read (Node.gather kind nodes d.offset) d
  | depth + 1, labelled field parts, c =>
    (run rules depth parts c).andThen fun nodes d => .read (Node.label field nodes) d
  | depth + 1, chain operand step, c =>
    (run rules depth operand c).andThen fun nodes d =>
      match nodes.getLast? with
      | none => .refused
      | some first =>
        Outcome.chain (run rules depth step) nodes.dropLast (d.rest.length + 1) first d
  | depth + 1, rule name, c => run rules depth (rules name) c

/-- One after the other. -/
def sequence : List (Grammar ρ) → Grammar ρ
  | [] => empty
  | [g] => g
  | g :: rest => seq g (sequence rest)

/-- The first of these that matches. -/
def oneOf : List (Grammar ρ) → Grammar ρ
  | [] => absent empty
  | [g] => g
  | g :: rest => alt g (oneOf rest)

/-- What may be left out. -/
def optional (item : Grammar ρ) : Grammar ρ := alt item empty

/-- A mark, whatever follows it. -/
def sign (text : String) : Grammar ρ := leaf (.token text) (.sign text)

/-- One of several operators. -/
def operator (marks : List String) : Grammar ρ := leaf (.token "") (.operator marks)

/-- A keyword. -/
def word (text : String) : Grammar ρ := leaf (.token text) (.word text)

/-- Items with separators between them; after the last one a separator may stand. -/
def separated (item separator : Grammar ρ) : Grammar ρ :=
  sequence [item, many (seq separator item), optional separator]

end Grammar

end TypeGraft.Syntax
