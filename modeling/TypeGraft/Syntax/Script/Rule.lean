import TypeGraft.Syntax.Grammar

/-!
# The rules of the script language

The names of the rules by which the grammar of types, expressions and statements refers to
itself, and the two dialects: one in which `<` may open an element, and one in which it may
open a type assertion.
-/

namespace TypeGraft.Syntax.Script

/-- What an opening angle bracket may mean in front of an expression. -/
inductive Dialect where
  /-- A type assertion, as in `<T>value`. -/
  | plain
  /-- An element, as in `<div />`. -/
  | elements
deriving DecidableEq, Repr

/-- The rules of the grammar. -/
inductive Rule where
  -- types
  | type
  | typeOperand
  | prefixedType
  | primaryType
  | functionType
  | objectType
  | tupleType
  | templateType
  | typeReference
  | typeArguments
  | typeParameters
  | typeMember
  | returnType
  | ascription
  | signature
  | parameters
  | parameter
  | binding
  | memberName
  -- expressions
  | expression
  | assignment
  | plainAssignment
  | conditional
  | binary
  | unary
  | operand
  | primary
  | atom
  | creation
  | argument
  | arguments
  | arrowBody
  | array
  | object
  | property
  | template
  | functionExpression
  | classExpression
  | classTail
  | classMember
  | decorator
  | element
  -- statements
  | block
  | statement
  | declaration
  | declarator
  | program
deriving DecidableEq, Repr

end TypeGraft.Syntax.Script
