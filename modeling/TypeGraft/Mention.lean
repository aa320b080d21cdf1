import TypeGraft.Declaration

/-!
# Mentions of types

A `TypeGraft.Mention` is one place in a declaration at which a type is named, the slot that
a new name may be written into. `TypeGraft.Declaration.mentions` lists those of a declaration
in reading order.

**What is followed.** The names of types, and of the types that are applied to arguments, are
followed through unions, intersections, arrays, tuples, parentheses and type arguments. Names
in a module (`m.T`), object types inside of other types, function types, conditional types
and the like are left alone, but the arguments of an applied type are followed whatever its
name.

**Properties.** Of an object type the types of its properties are followed. A property whose
type is just one name is `nested`: the shape of what it names may be left out.

**Parameters.** A type parameter of the declaration hides any type of the same name, so its
mentions are no mentions of a type (`Declaration.freeMentions`). The name of a base is always
that of a type.
-/

namespace TypeGraft

open Syntax

/-- Where a type is named. -/
inductive MentionKind where
  /-- As what a macro is applied to. -/
  | root
  /-- In the value of an alias or the type arguments of a base. -/
  | member
  /-- In the type of a property. -/
  | property
  /-- As a base of an interface. -/
  | extends_
deriving DecidableEq, Repr

/-- The word for where a type is named. -/
def MentionKind.word : MentionKind → String
  | root => "root"
  | member => "member"
  | property => "property"
  | extends_ => "extends"

/-- One naming of a type. -/
structure Mention where
  name : String
  span : Span
  kind : MentionKind
  /-- Whether the name is all of the type of a property. -/
  nested : Bool
deriving DecidableEq, Repr

/-- The types whose parts are followed. -/
def Syntax.Kind.isComposite : Kind → Bool
  | .unionType | .intersectionType | .arrayType | .parenthesizedType | .readonlyType
  | .tupleType | .optionalType | .restType | .typeArguments => true
  | _ => false

mutual

/-- The nodes that name types in a type, in order. -/
def Syntax.Node.typeNames : Node → List Node
  | .mk kind field span children =>
    if kind = .typeIdentifier then [.mk kind field span children]
    else if kind = .genericType then
      ((children.find? (·.field == some .name)).filter (·.kind == .typeIdentifier)).toList ++
        typeNamesOfArguments children
    else if kind.isComposite then typeNamesOfNamed children
    else []

/-- The nodes that name types in the named ones of some nodes. -/
def Syntax.Node.typeNamesOfNamed : List Node → List Node
  | [] => []
  | child :: rest =>
    (if child.kind.named then child.typeNames else []) ++ typeNamesOfNamed rest

/-- The nodes that name types in the first of some nodes that is a list of type arguments. -/
def Syntax.Node.typeNamesOfArguments : List Node → List Node
  | [] => []
  | child :: rest =>
    if child.kind = .typeArguments then child.typeNames else typeNamesOfArguments rest

end

/-- The type that a property is annotated with. A comment at its place hides it. -/
def Syntax.Node.ascribedType? (ascription : Node) : Option Node :=
  if ascription.kind = .ascription then ascription.namedChildren.head? else some ascription

/-- The types of the properties of an object type. -/
def Syntax.Node.propertyTypes (block : Node) : List Node :=
  (block.namedChildren.filter (·.kind == .propertySignature)).filterMap fun property =>
    (property.child? .type).bind Node.ascribedType?

namespace Mention

/-- The mention at a node. -/
def ofNode (source : Bytes) (kind : MentionKind) (nested : Bool) (node : Node) : Mention :=
  ⟨node.text source, node.span, kind, nested⟩

/-- The mentions in a type. -/
def ofType (source : Bytes) (kind : MentionKind) (type : Node) : List Mention :=
  type.typeNames.map (ofNode source kind false)

/-- The mentions in the properties of an object type. -/
def ofBlock (source : Bytes) (block : Node) : List Mention :=
  block.propertyTypes.flatMap fun type =>
    if type.kind = .typeIdentifier then [ofNode source .property true type]
    else ofType source .property type

/-- The mentions in one entry of a list of bases. -/
def ofBase (source : Bytes) (base : Heritage) : List Mention :=
  ⟨base.name, base.slot, .extends_, false⟩ ::
    base.arguments.toList.flatMap (ofType source .member)

end Mention

namespace Declaration

/-- The mentions of types in a declaration of the file `source`, in reading order. -/
def mentions (d : Declaration) (source : Bytes) : List Mention :=
  match d.shape with
  | .alias value =>
    if value.kind = .objectType then Mention.ofBlock source value
    else Mention.ofType source .member value
  | .interface bases block =>
    bases.flatMap (Mention.ofBase source) ++ Mention.ofBlock source block
  | .enumeration => []

/-- The mentions of types other than the declaration's own parameters. -/
def freeMentions (d : Declaration) (source : Bytes) : List Mention :=
  (d.mentions source).filter fun m => m.kind == .extends_ || !(d.parameterNames.contains m.name)

end Declaration

end TypeGraft
