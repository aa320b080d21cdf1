import TypeGraft.Syntax.Script.Types

/-!
# Expressions

The part of the grammar that describes values. Nothing of an expression is looked into but
the calls, the parentheses and the `await`s around them, and the literal that an enumeration
member may be given. So all operators of two operands share one rule, and their grouping is
left open.

**Arrow functions and parentheses.** Parameters with an arrow behind them are tried before a
parenthesized expression. Behind a question mark the colon of a conditional may be taken for
the one in front of a return type; where that does not work out, the branch is read once more
with arrow functions that state no return type (`Rule.plainAssignment`).

**Angle brackets.** Type arguments are taken where a call follows them, or something that
cannot go on with a comparison.
-/

namespace TypeGraft.Syntax.Script

open Grammar

namespace Rule

/-- Expressions separated by commas. -/
def expressionGrammar : Grammar Rule :=
  chain (rule .assignment) (node .otherExpression (seq (sign ",") (rule .assignment)))

/-- The operators that give a value to their left side. -/
def assignmentMarks : List String :=
  ["=", "+=", "-=", "*=", "/=", "%=", "**=", "<<=", ">>=", ">>>=", "&=", "|=", "^=", "&&=", "||=",
   "??="]

/-- An arrow function with parameters as given. -/
def arrow (parameters : Grammar Rule) : Grammar Rule :=
  let tail := sequence [sameLine, sign "=>", rule .arrowBody]
  node .otherExpression (alt
    (sequence [word "async", sameLine, alt parameters valueName, tail])
    (seq (alt parameters valueName) tail))

/-- The type that an arrow function returns. -/
def arrowReturn : Grammar Rule := optional (seq (sign ":") (rule .returnType))

/-- An expression without commas. Where `<` may open an element, an element is tried before
the type parameters of an arrow function. -/
def assignmentGrammar (dialect : Dialect) : Grammar Rule :=
  let generic := arrow (sequence [rule .typeParameters, rule .parameters, arrowReturn])
  let usual := [
    node .otherExpression (seq (word "yield")
      (optional (sequence [sameLine, optional (sign "*"), rule .assignment]))),
    arrow (seq (rule .parameters) arrowReturn)]
  let rest := chain (rule .conditional)
    (node .otherExpression (seq (operator assignmentMarks) (rule .assignment)))
  match dialect with
  | .plain => oneOf (usual ++ [generic, rest])
  | .elements => oneOf (usual ++ [rest, generic])

/-- An expression without commas, in which an arrow function states no return type. -/
def plainAssignmentGrammar : Grammar Rule :=
  alt (arrow (rule .parameters))
    (chain (rule .conditional)
      (node .otherExpression (seq (operator assignmentMarks) (rule .assignment))))

/-- The body of an arrow function. -/
def arrowBodyGrammar : Grammar Rule := alt (rule .block) (rule .assignment)

/-- A choice between two values. -/
def conditionalGrammar : Grammar Rule :=
  let branches (yes : Grammar Rule) :=
    node .otherExpression (sequence [operator ["?"], yes, sign ":", rule .assignment])
  chain (rule .binary) (alt (branches (rule .assignment)) (branches (rule .plainAssignment)))

/-- The operators of two operands. -/
def binaryMarks : List String :=
  ["&&", "||", "??", "**", "*", "/", "%", "+", "-", "<<", ">>>", ">>", "<=", "<", ">=", ">",
   "===", "==", "!==", "!=", "&", "|", "^"]

/-- Operands with operators between them, and the types they are said to have. -/
def binaryGrammar : Grammar Rule :=
  chain (rule .unary) (node .otherExpression (oneOf [
    seq (operator binaryMarks) (rule .unary),
    seq (alt (word "instanceof") (word "in")) (rule .unary),
    sequence [sameLine, alt (word "as") (word "satisfies"), alt (word "const") (rule .type)]]))

/-- An operand with operators in front of it. -/
def unaryGrammar (dialect : Dialect) : Grammar Rule :=
  let assertion := match dialect with
    | .plain => [node .otherExpression (sequence
        [sign "<", alt (word "const") (rule .type), sign ">", rule .unary])]
    | .elements => []
  oneOf ([
    node .unary (seq (operator ["!", "~", "+", "-"]) (rule .unary)),
    node .unary (seq (oneOf (["typeof", "void", "delete"].map word)) (rule .unary)),
    node .await (seq (word "await") (rule .unary)),
    node .otherExpression (seq (operator ["++", "--"]) (rule .unary))] ++ assertion ++ [
    chain (rule .operand)
      (node .otherExpression (seq sameLine (operator ["++", "--"])))])

/-- A step to a member of a value. -/
def memberSteps : List (Grammar Rule) :=
  let member := alt looseName (leaf .memberName .privateName)
  [node .otherExpression (seq (operator ["."]) member),
   node .otherExpression (sequence [sign "[", rule .expression, sign "]"])]

/-- A call. -/
def callSteps : List (Grammar Rule) :=
  let arguments := labelled .arguments (rule .arguments)
  let typeArguments := labelled .typeArguments (rule .typeArguments)
  [node .call arguments,
   node .call (seq typeArguments (alt arguments (labelled .arguments (rule .template)))),
   node .call (labelled .arguments (rule .template)),
   node .call (sequence [operator ["?."], optional typeArguments, arguments])]

/-- What may stand behind type arguments that are not followed by a call. -/
def afterTypeArguments : Grammar Rule :=
  oneOf [sign ")", sign "]", sign "\x7d", sign ":", sign ";", sign ",",
    operator [".", "?.", "=", "==", "===", "!=", "!==", "&&", "||", "??", "^", "&", "|"],
    word "as", word "satisfies", leaf (.token "") .endOfInput, absent sameLine]

/-- A value with the members taken of it and the calls made to it. -/
def operandGrammar : Grammar Rule :=
  chain (rule .primary) (oneOf (callSteps ++ memberSteps ++ [
    node .otherExpression (sequence [operator ["?."], sign "[", rule .expression, sign "]"]),
    node .otherExpression (seq (operator ["?."]) (alt looseName (leaf .memberName .privateName))),
    node .otherExpression (seq sameLine (operator ["!"])),
    node .otherExpression (seq (rule .typeArguments) (ahead afterTypeArguments))]))

/-- A value, perhaps a new one. -/
def primaryGrammar : Grammar Rule := alt (rule .creation) (rule .atom)

/-- The creation of an object. -/
def creationGrammar : Grammar Rule := node .otherExpression (seq (word "new") (alt
  (seq (operator ["."]) (word "target"))
  (sequence [alt (rule .creation) (chain (rule .atom) (oneOf memberSteps)),
    optional (rule .typeArguments), optional (rule .arguments)])))

/-- A value that is no new object. -/
def atomGrammar (dialect : Dialect) : Grammar Rule :=
  let elements := match dialect with
    | .plain => []
    | .elements => [rule .element]
  oneOf ([
    rule .functionExpression, rule .classExpression,
    node .otherExpression (oneOf
      (["this", "super", "null", "true", "false", "undefined"].map word)),
    node .otherExpression (seq (word "import")
      (alt (rule .arguments) (seq (operator ["."]) looseName))),
    leaf .number .number, leaf .string .string, rule .template,
    leaf .otherExpression .regex, valueName, leaf .otherExpression .privateName,
    node .parenthesized (sequence [sign "(", rule .expression, sign ")"]),
    rule .array, rule .object] ++ elements)

/-- An argument of a call or an element of an array. -/
def argumentGrammar : Grammar Rule :=
  alt (node .otherExpression (seq (sign "...") (rule .assignment))) (rule .assignment)

/-- The arguments of a call. -/
def argumentsGrammar : Grammar Rule :=
  node .arguments (sequence [sign "(", optional (commaSeparated (rule .argument)), sign ")"])

/-- An array. -/
def arrayGrammar : Grammar Rule :=
  node .otherExpression (sequence [sign "[", many (sign ","),
    optional (separated (rule .argument) (seq (sign ",") (many (sign ",")))), sign "]"])

/-- An object. -/
def objectGrammar : Grammar Rule :=
  node .otherExpression (sequence [sign "\x7b", optional (commaSeparated (rule .property)),
    sign "\x7d"])

/-- A property of an object. -/
def propertyGrammar : Grammar Rule := node .otherMember (oneOf [
  seq (sign "...") (rule .assignment),
  sequence [
    many (seq (oneOf (["async", "get", "set", "static"].map word))
      (ahead (alt (rule .memberName) (sign "*")))),
    optional (sign "*"), rule .memberName, ahead signatureStart, rule .signature, rule .block],
  sequence [rule .memberName, sign ":", rule .assignment],
  sequence [valueName, optional (seq (operator ["="]) (rule .assignment))]])

/-- A template. -/
def templateGrammar : Grammar Rule :=
  node .template (sequence [sign "`",
    many (alt (raw (.token "") .templateText)
      (node .substitution (sequence [raw (.token "$\x7b") (.sign "$\x7b"), rule .expression,
        sign "\x7d"]))),
    raw (.token "`") (.sign "`")])

/-- What comes in front of the signature of a function. -/
def functionHead (name : Grammar Rule) : Grammar Rule :=
  sequence [optional (seq (word "async") sameLine), word "function", optional (sign "*"), name]

/-- A function as a value. -/
def functionExpressionGrammar : Grammar Rule :=
  node .otherExpression (sequence [functionHead (optional valueName), rule .signature, rule .block])

/-- A class as a value. -/
def classExpressionGrammar : Grammar Rule :=
  node .otherExpression (sequence [many (rule .decorator), word "class",
    optional (seq (absent (word "implements")) typeName), rule .classTail])

/-- What comes behind the name of a class. -/
def classTailGrammar : Grammar Rule := sequence [
  optional (rule .typeParameters),
  optional (sequence [word "extends",
    chain (rule .primary) (oneOf (callSteps ++ memberSteps)), optional (rule .typeArguments)]),
  optional (seq (word "implements") (commaList (rule .type))),
  sign "\x7b", many (rule .classMember), sign "\x7d"]

/-- A member of a class. -/
def classMemberGrammar : Grammar Rule :=
  let leading := seq (many (rule .decorator))
    (many (seq (oneOf (["public", "private", "protected", "static", "abstract", "override",
        "readonly", "declare", "async", "accessor", "get", "set"].map word))
      (ahead (alt (rule .memberName) (sign "*")))))
  node .otherMember (oneOf [
    sign ";",
    seq (word "static") (rule .block),
    sequence [leading, sign "[", looseName, sign ":", rule .type, sign "]", rule .ascription,
      terminator],
    sequence [leading, optional (sign "*"), rule .memberName,
      optional (sign "?"), ahead signatureStart, rule .signature, alt (rule .block) terminator],
    sequence [leading, rule .memberName, optional (operator ["?", "!"]),
      optional (rule .ascription), optional (seq (operator ["="]) (rule .expression)),
      terminator]])

/-- A decorator. -/
def decoratorGrammar : Grammar Rule :=
  node .otherExpression (seq (sign "@") (alt
    (node .parenthesized (sequence [sign "(", rule .expression, sign ")"]))
    (chain valueName (oneOf (callSteps ++ memberSteps)))))

/-- An element with its attributes and children. -/
def elementGrammar : Grammar Rule :=
  let name := seq (leaf .identifier .attributeName)
    (many (seq (alt (sign ".") (sign ":")) (leaf .identifier .attributeName)))
  let property := alt
    (sequence [sign "\x7b", sign "...", rule .assignment, sign "\x7d"])
    (seq name (optional (seq (operator ["="]) (oneOf [
      leaf .string .attributeValue,
      sequence [sign "\x7b", optional (rule .expression), sign "\x7d"],
      rule .element]))))
  let child := oneOf [
    raw (.token "") .elementText,
    node .otherExpression (sequence [sign "\x7b",
      optional (seq (optional (sign "...")) (rule .expression)), sign "\x7d"]),
    rule .element]
  let content (close : Grammar Rule) :=
    sequence [sign ">", many child, sign "<", sign "/", close, sign ">"]
  node .otherExpression (seq (sign "<") (alt (content empty)
    (sequence [name, optional (rule .typeArguments), many property,
      alt (seq (sign "/") (sign ">")) (content name)])))

end Rule

end TypeGraft.Syntax.Script
