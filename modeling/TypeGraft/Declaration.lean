import TypeGraft.Syntax.Node

/-!
# Declarations

What is kept of a type declaration after its file was scanned.

* `TypeGraft.Key`: which declaration it is, by its file and its name there.
* `TypeGraft.Declaration`: its parts. The `body` is the part of it that is copied; what may
  stand there depends on its `Shape`.
* `TypeGraft.Heritage`: one entry of the list of types that an interface extends.
-/

namespace TypeGraft

open Syntax

/-- The identity of a declaration: the file that holds it and its name there. -/
structure Key where
  file : String
  name : String
deriving DecidableEq, Repr, Inhabited

namespace Key

/-- Keys in order: by file, then by name. -/
def le (a b : Key) : Bool := a.file < b.file || (a.file == b.file && !(b.name < a.name))

end Key

/-- One type that an interface extends, as it is written. -/
structure Heritage where
  /-- The name of the base. -/
  name : String
  slot : Span
  /-- The name with its type arguments. -/
  span : Span
  text : String
  /-- The type arguments. -/
  arguments : Option Node

/-- The kinds of type declarations, with what only one kind has. -/
inductive Shape where
  /-- A name for a type, which the node describes. -/
  | alias (value : Node)
  /-- An interface with the types it extends and the block of its members. -/
  | interface (bases : List Heritage) (block : Node)
  | enumeration

/-- A type declaration. -/
structure Declaration where
  name : String
  /-- The file that holds it. -/
  file : String
  /-- The declaration by itself. -/
  span : Span
  /-- The statement it is part of, with the words that export it or declare it ambient. -/
  statement : Span
  /-- The part that is copied. -/
  body : Span
  /-- The text to copy: the bytes of the body, and for an enumeration the types of its
  values. -/
  content : Bytes
  /-- The list of type parameters, as it is written. -/
  typeParameters : String
  /-- The names of the type parameters. -/
  parameterNames : List String
  /-- The line on which it starts. -/
  line : Nat
  shape : Shape

namespace Declaration

/-- The identity of the declaration. -/
def key (d : Declaration) : Key := ⟨d.file, d.name⟩

/-- Whether the declaration has members: an interface, or an alias of an object type. -/
def hasMembers (d : Declaration) : Bool :=
  match d.shape with
  | .alias value => value.kind == .objectType
  | .interface _ _ => true
  | .enumeration => false

/-- Whether the declaration is an interface. -/
def isInterface (d : Declaration) : Bool :=
  match d.shape with
  | .interface _ _ => true
  | _ => false

/-- Whether the declaration is an enumeration. -/
def isEnumeration (d : Declaration) : Bool :=
  match d.shape with
  | .enumeration => true
  | _ => false

/-- The types that the declaration extends. -/
def bases (d : Declaration) : List Heritage :=
  match d.shape with
  | .interface bases _ => bases
  | _ => []

/-- The word for the kind of declaration. -/
def word (d : Declaration) : String :=
  match d.shape with
  | .alias _ => "type"
  | .interface _ _ => "interface"
  | .enumeration => "enum"

end Declaration

/-- The kinds of values that the members of an enumeration may have. -/
inductive ValueKind where
  | number
  | string
deriving DecidableEq, Repr

/-- The word for a kind of values. -/
def ValueKind.word : ValueKind → String
  | number => "number"
  | string => "string"

/-- The kinds of values, in the order in which they are written. -/
def ValueKind.all : List ValueKind := [number, string]

/-- The type of an enumeration whose members have values of these kinds. Where none is known,
any kind may occur. -/
def enumerationBody (kinds : List ValueKind) : String :=
  let found := ValueKind.all.filter (· ∈ kinds)
  String.intercalate " | " ((if found.isEmpty then ValueKind.all else found).map ValueKind.word)

end TypeGraft
