import TypeGraft.Span

/-!
# Concrete syntax trees

The tree of a script keeps every token, with its byte range, and every comment.

* `TypeGraft.Syntax.Kind` says what a node is. Constructs that nothing looks into share the
  kinds `otherType`, `otherMember`, `otherExpression` and `otherStatement`.
* `TypeGraft.Syntax.Field` labels the children that have a role, such as the name of a
  declaration.
* `TypeGraft.Syntax.Node` is a node with its kind, its own label, its span and its children.

**Comments are nodes.** A comment is a child of the smallest node that stands on both sides
of it. So a look at the first named child may find a comment, while a look by label never
does.
-/

namespace TypeGraft.Syntax

/-- What a node of the tree is. -/
inductive Kind where
  /-- A keyword or a punctuation mark, with its text. -/
  | token (text : String)
  | comment
  | program
  /-- The line at the start of a file that names its interpreter. -/
  | interpreterLine
  -- statements
  | importStatement
  | importClause
  | namespaceImport
  | namedImports
  | importSpecifier
  | exportStatement
  | exportClause
  | exportSpecifier
  | namespaceExport
  | ambient
  | typeAlias
  | interface
  | enumeration
  | expressionStatement
  | lexical
  | declarator
  | otherStatement
  -- names
  | identifier
  | typeIdentifier
  | qualifiedType
  | memberName
  -- types
  | typeParameters
  | typeParameter
  | typeArguments
  | genericType
  | predefinedType
  | unionType
  | intersectionType
  | arrayType
  | parenthesizedType
  | readonlyType
  | tupleType
  | optionalType
  | restType
  | objectType
  | otherType
  | ascription
  | propertySignature
  | otherMember
  | extendsClause
  | enumBody
  | enumAssignment
  -- expressions
  | number
  | string
  | template
  | substitution
  | unary
  | parenthesized
  | await
  | call
  | arguments
  | otherExpression
deriving DecidableEq, Repr

/-- Tokens are the unnamed kinds. -/
def Kind.named : Kind → Bool
  | .token _ => false
  | _ => true

/-- The role of a child in its parent. -/
inductive Field where
  | name
  | value
  | body
  | typeParameters
  | source
  | alias
  | declaration
  | function
  | typeArguments
  | arguments
  | type
deriving DecidableEq, Repr

/-- A node of a concrete syntax tree. -/
inductive Node where
  | mk (kind : Kind) (field : Option Field) (span : Span) (children : List Node)

namespace Node

/-- What the node is. -/
def kind : Node → Kind
  | .mk k _ _ _ => k

/-- The role of the node in its parent. -/
def field : Node → Option Field
  | .mk _ f _ _ => f

/-- The bytes from the first token of the node to its last. -/
def span : Node → Span
  | .mk _ _ s _ => s

/-- The parts of the node, in order. -/
def children : Node → List Node
  | .mk _ _ _ cs => cs

/-- The same node in another role. -/
def withField (node : Node) (field : Option Field) : Node :=
  .mk node.kind field node.span node.children

/-- Whether the node is a comment. -/
def isComment (node : Node) : Bool := node.kind == .comment

/-- The children that are not tokens; comments are among them. -/
def namedChildren (node : Node) : List Node := node.children.filter (·.kind.named)

/-- The first child in a role. -/
def child? (node : Node) (field : Field) : Option Node :=
  node.children.find? (·.field == some field)

/-- Whether the token `text` is a child of the node. -/
def hasToken (node : Node) (text : String) : Bool :=
  node.children.any (·.kind == .token text)

/-- The first named child of a kind. -/
def childOfKind? (node : Node) (kind : Kind) : Option Node :=
  node.namedChildren.find? (·.kind == kind)

/-- The bytes of the node. -/
def bytes (node : Node) (source : Bytes) : Bytes := node.span.slice source

/-- The text of the node. -/
def text (node : Node) (source : Bytes) : String := (node.bytes source).toStringLossy

end Node

end TypeGraft.Syntax
