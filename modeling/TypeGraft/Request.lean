import TypeGraft.Outline

/-!
# Requests of macros

A script asks for a type by applying a macro to its name, as in `defineProps<Props>()`. A
`TypeGraft.Request` is one such use of a name; `TypeGraft.Request.ofTree` lists those of a
script in order.

A call counts if it stands at the top of the script: as a statement, or as the first value of
a variable or of a default export. It may be awaited, stand in parentheses, and be the first
argument of `withDefaults`. Its first type argument has to be a mere name.
-/

namespace TypeGraft

open Syntax

/-- A name to which a macro is applied. -/
structure Request where
  name : String
  span : Span
  macroName : String
  line : Nat
deriving DecidableEq, Repr

namespace Request

/-- The macros that are looked for where nothing else is said. -/
def standardMacros : List String := ["defineProps", "defineEmits"]

/-- The functions whose first argument may be the call of a macro. -/
def passThrough : List String := ["withDefaults"]

/-- The name of the function that a call is made to. -/
def callee? (source : Bytes) (call : Node) : Option String :=
  match call.child? .function with
  | some f => if f.kind = .identifier then some (f.text source) else none
  | none => none

/-- The expressions that a statement puts at the top of the script. -/
def expressions : Node → List Node
  | .mk kind _ _ children =>
    match kind with
    | .expressionStatement => children.filter (·.kind.named)
    | .lexical =>
      (children.filter (·.kind == .declarator)).filterMap fun d => d.child? .value
    | .exportStatement =>
      declared children ++ (children.find? (·.field == some .value)).toList
    | _ => []
where
  /-- The expressions of the first of some nodes that is a declaration. -/
  declared : List Node → List Node
    | [] => []
    | child :: rest => if child.field = some .declaration then expressions child else declared rest

/-- What is left of an expression without the parentheses and the `await`s around it. -/
def unwrapped? : Node → Option Node
  | .mk kind field span children =>
    if kind = .await ∨ kind = .parenthesized then first? children
    else some (.mk kind field span children)
where
  /-- What is left of the first named one of some nodes. -/
  first? : List Node → Option Node
    | [] => none
    | child :: rest => if child.kind.named then unwrapped? child else first? rest

/-- The call that an expression comes down to. -/
def innerCall? (source : Bytes) (expression : Node) : Option Node := do
  let node ← unwrapped? expression
  if node.kind = .call ∧ ((callee? source node).any passThrough.contains) then
    (node.child? .arguments).bind fun arguments => arguments.namedChildren.head?
  else some node

/-- The request that an expression makes. -/
def ofExpression? (macros : List String) (source : Bytes) (expression : Node) :
    Option Request := do
  let call ← innerCall? source expression
  guard (call.kind = .call)
  let name ← callee? source call
  guard (macros.contains name)
  let arguments ← call.child? .typeArguments
  let argument ← arguments.namedChildren.head?
  guard (argument.kind = .typeIdentifier)
  some ⟨argument.text source, argument.span, name, Outline.lineAt source argument.span.start⟩

/-- The requests of a script. -/
def ofTree (macros : List String) (source : Bytes) (tree : Node) : List Request :=
  (tree.namedChildren.flatMap expressions).filterMap (ofExpression? macros source)

end Request

end TypeGraft
