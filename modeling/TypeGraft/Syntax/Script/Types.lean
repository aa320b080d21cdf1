import TypeGraft.Syntax.Script.Rule

/-!
# Types, members and parameters

The part of the grammar that describes types.

**Precedence.** From the loosest to the tightest: a conditional type, a union, an
intersection, a function type or a type operator, an array or an indexed type, a reference.
Unions and intersections nest to the left, and a leading `|` or `&` makes a union or an
intersection of one type.

**Members** of an object type end at a comma, a semicolon or a line break. A member that
starts like another kind of member is tried as that one first, so a property comes last.
-/

namespace TypeGraft.Syntax.Script

open Grammar

/-- Items between commas, with a comma after the last one allowed. -/
def commaSeparated (item : Grammar Rule) : Grammar Rule := separated item (sign ",")

/-- One or more items between commas. -/
def commaList (item : Grammar Rule) : Grammar Rule := seq item (many (seq (sign ",") item))

/-- A name that a type is called by. -/
def typeName : Grammar Rule := leaf .typeIdentifier .identifier

/-- A name that a value is called by. -/
def valueName : Grammar Rule := leaf .identifier .identifier

/-- Any name, be it reserved or not. -/
def looseName : Grammar Rule := leaf .identifier .anyName

/-- What opens the parameters of a signature. -/
def signatureStart : Grammar Rule := alt (sign "(") (sign "<")

/-- Words that modify the member after them. They are names themselves where no member name
follows. -/
def modifiers (words : List String) : Grammar Rule :=
  many (seq (oneOf (words.map word)) (ahead (rule .memberName)))

namespace Rule

/-- A type. -/
def typeGrammar : Grammar Rule :=
  chain (rule .typeOperand)
    (node .otherType (sequence
      [sameLine, word "extends", rule .typeOperand, sign "?", rule .type, sign ":", rule .type]))

/-- Types joined by one of the two signs of union and intersection. -/
def joined (kind : Kind) (mark : String) (item : Grammar Rule) : Grammar Rule :=
  let further := node kind (seq (operator [mark]) item)
  chain (alt further item) further

/-- A union. -/
def typeOperandGrammar : Grammar Rule :=
  joined .unionType "|" (joined .intersectionType "&"
    (alt (rule .functionType) (rule .prefixedType)))

/-- A type under type operators. -/
def prefixedTypeGrammar : Grammar Rule := oneOf [
  node .readonlyType (seq (word "readonly") (rule .prefixedType)),
  node .otherType (seq (word "keyof") (rule .prefixedType)),
  node .predefinedType (seq (word "unique") (word "symbol")),
  node .otherType (sequence [word "infer", typeName,
    optional (seq (word "extends") (rule .prefixedType))]),
  chain (rule .primaryType) (alt
    (node .arrayType (sequence [sameLine, sign "[", sign "]"]))
    (node .otherType (sequence [sameLine, sign "[", rule .type, sign "]"])))]

/-- A function type or a constructor type. -/
def functionTypeGrammar : Grammar Rule :=
  node .otherType (sequence [
    optional (sequence [optional (word "abstract"), word "new"]),
    optional (rule .typeParameters), rule .parameters, sign "=>", rule .returnType])

/-- The types that name themselves. -/
def predefinedTypes : List String :=
  ["any", "number", "boolean", "string", "symbol", "void", "unknown", "never", "object"]

/-- Names joined by points. -/
def path (first : Grammar Rule) : Grammar Rule := seq first (many (seq (operator ["."]) looseName))

/-- The module that a type is taken from. -/
def importCall : Grammar Rule :=
  sequence [word "import", sign "(", rule .type, optional (seq (sign ",") (rule .type)), sign ")"]

/-- A type without operators. -/
def primaryTypeGrammar : Grammar Rule := oneOf [
  node .parenthesizedType (sequence [sign "(", rule .type, sign ")"]),
  rule .objectType, rule .tupleType, rule .templateType,
  leaf .otherType .string, leaf .otherType .number,
  node .otherType (seq (sign "-") (leaf .number .number)),
  node .otherType (oneOf (["true", "false", "null", "undefined", "this"].map word)),
  node .otherType (sequence [word "typeof",
    path (oneOf [importCall, word "this", looseName]),
    optional (seq sameLine (rule .typeArguments))]),
  node .otherType (sequence [path importCall, optional (seq sameLine (rule .typeArguments))]),
  node .predefinedType (oneOf (predefinedTypes.map word)),
  rule .typeReference]

/-- A named type with the types it is applied to. -/
def typeReferenceGrammar : Grammar Rule :=
  chain
    (alt (node .qualifiedType (sequence [valueName, operator ["."], looseName,
        many (seq (operator ["."]) looseName)]))
      typeName)
    (node .genericType (seq sameLine (labelled .typeArguments (rule .typeArguments))))

/-- The types that a name is applied to. -/
def typeArgumentsGrammar : Grammar Rule :=
  node .typeArguments (sequence [sign "<", commaSeparated (rule .type), sign ">"])

/-- The type parameters of a declaration. -/
def typeParametersGrammar : Grammar Rule :=
  node .typeParameters (sequence [sign "<",
    commaSeparated (node .typeParameter (sequence [
      many (seq (oneOf (["const", "in", "out"].map word)) (ahead typeName)),
      labelled .name typeName,
      optional (seq (word "extends") (rule .type)),
      optional (seq (operator ["="]) (rule .type))])),
    sign ">"])

/-- A tuple type. An element with a name is no type. -/
def tupleTypeGrammar : Grammar Rule :=
  node .tupleType (sequence [sign "[",
    optional (commaSeparated (oneOf [
      node .otherMember (sequence [optional (sign "..."), looseName, optional (sign "?"),
        sign ":", rule .type]),
      node .restType (seq (sign "...") (rule .type)),
      chain (rule .type) (node .optionalType (sign "?"))])),
    sign "]"])

/-- A template with types in it. -/
def templateTypeGrammar : Grammar Rule :=
  node .otherType (sequence [sign "`",
    many (alt (raw (.token "") .templateText)
      (node .substitution (sequence [raw (.token "$\x7b") (.sign "$\x7b"), rule .type,
        sign "\x7d"]))),
    raw (.token "`") (.sign "`")])

/-- The members of an object type or of an interface, in braces. -/
def objectTypeGrammar : Grammar Rule :=
  node .objectType (sequence [sign "\x7b", optional (alt (sign ",") (sign ";")),
    optional (separated (rule .typeMember) (alt (sign ",") terminator)), sign "\x7d"])

/-- A name of a member. -/
def memberNameGrammar : Grammar Rule := oneOf [
  leaf .memberName .anyName, leaf .string .string, leaf .number .number,
  leaf .memberName .privateName,
  node .memberName (sequence [sign "[", rule .expression, sign "]"])]

/-- An optional sign in front of a modifier that a mapped type adds or takes away. -/
def addedOrRemoved (modifier : Grammar Rule) : Grammar Rule :=
  optional (seq (optional (operator ["+", "-"])) modifier)

/-- A member of an object type or of an interface. -/
def typeMemberGrammar : Grammar Rule := oneOf [
  node .otherMember (sequence [addedOrRemoved (word "readonly"), sign "[", looseName,
    alt (seq (sign ":") (rule .type))
      (sequence [word "in", rule .type, optional (seq (word "as") (rule .type))]),
    sign "]", addedOrRemoved (sign "?"), optional (rule .ascription)]),
  node .otherMember (sequence [optional (word "abstract"), word "new", ahead signatureStart,
    rule .signature]),
  node .otherMember (rule .signature),
  node .otherMember (sequence [
    modifiers ["public", "private", "protected", "static", "override", "readonly", "get", "set",
      "async"],
    optional (sign "*"), rule .memberName, optional (sign "?"), ahead signatureStart,
    rule .signature]),
  node .propertySignature (sequence [
    modifiers ["public", "private", "protected", "static", "override", "readonly"],
    labelled .name (rule .memberName), optional (sign "?"),
    optional (labelled .type (rule .ascription))])]

/-- The type that a function returns, or what it asserts of a parameter. -/
def returnTypeGrammar : Grammar Rule :=
  let subject := alt (word "this") valueName
  oneOf [
    node .otherType (sequence [word "asserts", sameLine, subject,
      optional (sequence [sameLine, word "is", rule .type])]),
    node .otherType (sequence [subject, sameLine, word "is", rule .type]),
    rule .type]

/-- A colon and a type. -/
def ascriptionGrammar : Grammar Rule :=
  node .ascription (seq (sign ":") (rule .type))

/-- Type parameters, parameters and the type that is returned. -/
def signatureGrammar : Grammar Rule :=
  sequence [optional (rule .typeParameters), rule .parameters,
    optional (seq (sign ":") (rule .returnType))]

/-- The parameters of a function, in parentheses. -/
def parametersGrammar : Grammar Rule :=
  node .otherMember (sequence [sign "(", optional (commaSeparated (rule .parameter)), sign ")"])

/-- One parameter. -/
def parameterGrammar : Grammar Rule := sequence [
  many (rule .decorator),
  many (seq (oneOf (["public", "private", "protected", "override", "readonly"].map word))
    (ahead (rule .binding))),
  optional (sign "..."), alt (word "this") (rule .binding), optional (sign "?"),
  optional (rule .ascription), optional (seq (operator ["="]) (rule .assignment))]

/-- A name that gets a value, or a pattern of such names. -/
def bindingGrammar : Grammar Rule :=
  let default := optional (seq (operator ["="]) (rule .assignment))
  oneOf [
    valueName,
    node .otherExpression (sequence [sign "\x7b",
      optional (commaSeparated (oneOf [
        seq (sign "...") (rule .binding),
        sequence [rule .memberName, sign ":", rule .binding, default],
        sequence [valueName, default]])),
      sign "\x7d"]),
    node .otherExpression (sequence [sign "[", many (sign ","),
      optional (separated (sequence [optional (sign "..."), rule .binding, default])
        (seq (sign ",") (many (sign ",")))),
      sign "]"])]

end Rule

end TypeGraft.Syntax.Script
