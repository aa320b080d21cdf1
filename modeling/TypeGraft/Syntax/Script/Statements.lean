import TypeGraft.Syntax.Script.Expressions

/-!
# Statements and whole scripts

The part of the grammar that describes declarations, imports, exports and the other
statements, and `TypeGraft.Syntax.Script.parse`, which reads a script.

A script is read as a whole or not at all.
-/

namespace TypeGraft.Syntax.Script

open Grammar

namespace Rule

/-- A block of statements. -/
def blockGrammar : Grammar Rule :=
  node .otherStatement (sequence [sign "\x7b", many (rule .statement), sign "\x7d"])

/-- A variable with its type and first value. -/
def declaratorGrammar : Grammar Rule :=
  node .declarator (sequence [labelled .name (rule .binding), optional (operator ["!"]),
    optional (rule .ascription),
    optional (seq (operator ["="]) (labelled .value (rule .assignment)))])

/-- The words that declare variables. -/
def variableWord : Grammar Rule := oneOf (["const", "let", "var"].map word)

/-- Variables. -/
def variableList : Grammar Rule :=
  node .lexical (sequence [variableWord, commaList (rule .declarator), terminator])

/-- A type alias. -/
def typeAlias : Grammar Rule :=
  node .typeAlias (sequence [word "type", labelled .name typeName,
    optional (labelled .typeParameters (rule .typeParameters)), operator ["="],
    labelled .value (rule .type), terminator])

/-- An interface. -/
def interface : Grammar Rule :=
  node .interface (sequence [word "interface", labelled .name typeName,
    optional (labelled .typeParameters (rule .typeParameters)),
    optional (node .extendsClause (seq (word "extends") (commaList (rule .typeReference)))),
    labelled .body (rule .objectType)])

/-- An enumeration. -/
def enumeration : Grammar Rule :=
  node .enumeration (sequence [optional (word "const"), word "enum", labelled .name valueName,
    labelled .body (node .enumBody (sequence [sign "\x7b",
      optional (commaSeparated (alt
        (node .enumAssignment (sequence [labelled .name (rule .memberName), operator ["="],
          labelled .value (rule .assignment)]))
        (rule .memberName))),
      sign "\x7d"]))])

/-- A function. Without a body it is a signature. -/
def function : Grammar Rule :=
  node .otherStatement (sequence [functionHead valueName, rule .signature,
    alt (rule .block) terminator])

/-- A class. -/
def class_ : Grammar Rule :=
  node .otherStatement (sequence [many (rule .decorator), optional (word "abstract"),
    word "class", typeName, rule .classTail])

/-- A namespace or a module. -/
def namespace_ : Grammar Rule :=
  node .otherStatement (sequence [alt (word "namespace") (word "module"), sameLine,
    alt (leaf .string .string) (path valueName), alt (rule .block) terminator])

/-- Another name for a part of a module. -/
def importAlias : Grammar Rule :=
  node .otherStatement (sequence [word "import", optional (seq (word "type") (ahead valueName)),
    valueName, operator ["="],
    alt (sequence [word "require", sign "(", leaf .string .string, sign ")"]) (path valueName),
    terminator])

/-- What may be exported or declared ambient. -/
def declarationGrammar : Grammar Rule :=
  oneOf [typeAlias, interface, enumeration, function, class_, variableList, namespace_, importAlias]

/-- A declaration of something that exists elsewhere. -/
def ambient : Grammar Rule :=
  node .ambient (seq (word "declare") (alt (seq (word "global") (rule .block))
    (rule .declaration)))

/-- What a module says about how it is to be loaded. -/
def importAttributes : Grammar Rule :=
  optional (seq (alt (word "with") (word "assert")) (rule .object))

/-- The module that names come from. -/
def fromModule : Grammar Rule :=
  sequence [word "from", labelled .source (leaf .string .string), importAttributes]

/-- A name in a list of imports or exports, perhaps with another name for it. The word `type`
and the word `as` may themselves be names there. -/
def specifier (kind : Kind) (own other : Grammar Rule) : Grammar Rule :=
  let name := labelled .name (alt (leaf .string .string) looseName)
  let renamed := sequence [name, word "as", labelled .alias other]
  let stop := ahead (alt (sign ",") (sign "\x7d"))
  let typeOnly := alt (word "type") (word "typeof")
  node kind (oneOf [
    seq renamed stop,
    sequence [typeOnly, renamed, stop],
    sequence [typeOnly, labelled .name own, stop],
    seq (labelled .name own) stop])

/-- The names that an import brings in. -/
def importClause : Grammar Rule :=
  let all := node .namespaceImport (sequence [sign "*", word "as", valueName])
  let named := node .namedImports (sequence [sign "\x7b",
    optional (commaSeparated (specifier .importSpecifier valueName valueName)), sign "\x7d"])
  node .importClause (oneOf [all, named,
    seq valueName (optional (seq (sign ",") (alt all named)))])

/-- An import. -/
def import_ : Grammar Rule :=
  node .importStatement (seq (word "import") (seq (oneOf [
    seq (labelled .source (leaf .string .string)) importAttributes,
    sequence [alt (word "type") (word "typeof"), importClause, fromModule],
    seq importClause fromModule]) terminator))

/-- An export. -/
def export_ : Grammar Rule :=
  let anyName := alt (leaf .string .string) looseName
  let names := node .exportClause (sequence [sign "\x7b",
    optional (commaSeparated (specifier .exportSpecifier anyName anyName)), sign "\x7d"])
  let all := alt
    (node .namespaceExport (sequence [sign "*", word "as", anyName]))
    (sign "*")
  node .exportStatement (sequence [many (rule .decorator), word "export", oneOf [
    sequence [optional (word "type"), all, fromModule, terminator],
    sequence [optional (word "type"), names, optional fromModule, terminator],
    sequence [word "default", alt
      (labelled .declaration (rule .declaration))
      (seq (labelled .value (rule .expression)) terminator)],
    labelled .declaration (alt ambient (rule .declaration)),
    sequence [operator ["="], rule .expression, terminator],
    sequence [word "as", word "namespace", valueName, terminator]]])

/-- A condition in parentheses. -/
def condition : Grammar Rule := sequence [sign "(", rule .expression, sign ")"]

/-- What a loop runs over. -/
def loopHead : Grammar Rule := alt
  (sequence [alt (seq variableWord (rule .binding)) (rule .operand),
    alt (word "in") (word "of"), rule .expression])
  (sequence [
    optional (alt (seq variableWord (commaList (rule .declarator))) (rule .expression)), sign ";",
    optional (rule .expression), sign ";", optional (rule .expression)])

/-- The statements that direct the flow of control. -/
def controls : List (Grammar Rule) := [
  sequence [word "if", condition, rule .statement,
    optional (seq (word "else") (rule .statement))],
  sequence [word "for", optional (word "await"), sign "(", loopHead, sign ")", rule .statement],
  sequence [word "while", condition, rule .statement],
  sequence [word "do", rule .statement, word "while", condition, optional (sign ";")],
  sequence [word "with", condition, rule .statement],
  sequence [word "switch", condition, sign "\x7b",
    many (oneOf [
      sequence [word "case", rule .expression, sign ":"],
      sequence [word "default", sign ":"],
      rule .statement]),
    sign "\x7d"],
  sequence [word "try", rule .block,
    optional (sequence [word "catch",
      optional (sequence [sign "(", rule .binding, optional (rule .ascription), sign ")"]),
      rule .block]),
    optional (seq (word "finally") (rule .block))],
  sequence [word "return", optional (seq sameLine (rule .expression)), terminator],
  sequence [word "throw", sameLine, rule .expression, terminator],
  sequence [alt (word "break") (word "continue"), optional (seq sameLine valueName), terminator],
  seq (word "debugger") terminator,
  sign ";",
  sequence [valueName, sign ":", rule .statement]]

/-- A statement. -/
def statementGrammar : Grammar Rule :=
  oneOf ([rule .block, import_, export_, ambient, rule .declaration] ++
    controls.map (node .otherStatement) ++
    [node .expressionStatement (seq (rule .expression) terminator)])

/-- A script. -/
def programGrammar : Grammar Rule :=
  node .program (sequence [optional (raw .interpreterLine .interpreterLine),
    many (rule .statement), leaf (.token "") .endOfInput])

/-- What each rule says, in a dialect. -/
def grammar (dialect : Dialect) : Rule → Grammar Rule
  | .type => typeGrammar
  | .typeOperand => typeOperandGrammar
  | .prefixedType => prefixedTypeGrammar
  | .primaryType => primaryTypeGrammar
  | .functionType => functionTypeGrammar
  | .objectType => objectTypeGrammar
  | .tupleType => tupleTypeGrammar
  | .templateType => templateTypeGrammar
  | .typeReference => typeReferenceGrammar
  | .typeArguments => typeArgumentsGrammar
  | .typeParameters => typeParametersGrammar
  | .typeMember => typeMemberGrammar
  | .returnType => returnTypeGrammar
  | .ascription => ascriptionGrammar
  | .signature => signatureGrammar
  | .parameters => parametersGrammar
  | .parameter => parameterGrammar
  | .binding => bindingGrammar
  | .memberName => memberNameGrammar
  | .expression => expressionGrammar
  | .assignment => assignmentGrammar dialect
  | .plainAssignment => plainAssignmentGrammar
  | .conditional => conditionalGrammar
  | .binary => binaryGrammar
  | .unary => unaryGrammar dialect
  | .operand => operandGrammar
  | .primary => primaryGrammar
  | .atom => atomGrammar dialect
  | .creation => creationGrammar
  | .argument => argumentGrammar
  | .arguments => argumentsGrammar
  | .arrowBody => arrowBodyGrammar
  | .array => arrayGrammar
  | .object => objectGrammar
  | .property => propertyGrammar
  | .template => templateGrammar
  | .functionExpression => functionExpressionGrammar
  | .classExpression => classExpressionGrammar
  | .classTail => classTailGrammar
  | .classMember => classMemberGrammar
  | .decorator => decoratorGrammar
  | .element => elementGrammar
  | .block => blockGrammar
  | .statement => statementGrammar
  | .declaration => declarationGrammar
  | .declarator => declaratorGrammar
  | .program => programGrammar

end Rule

/-- The number of nested steps that a reading may take. Between two characters no rule comes
back to itself, so the steps nested without reading anything are bounded by the size of the
grammar. -/
def allowance (source : Bytes) : Nat := 1000 * (source.length + 1)

/-- The tree of a script, `none` if the script is not of the language. -/
def parse (dialect : Dialect) (source : Bytes) : Option Node :=
  match run (Rule.grammar dialect) (allowance source) (rule .program) (Cursor.start source) with
  | .read nodes _ => nodes.find? fun n => n.kind == .program
  | .refused => none
  | .exhausted => none

end TypeGraft.Syntax.Script
