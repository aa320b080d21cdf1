import TypeGraft.Mention

/-!
# References

A `TypeGraft.Reference` is a mention of a type that waits for its declaration. It keeps its
identity, a `TypeGraft.RefId`, while the search for the declaration goes from file to file.
-/

namespace TypeGraft

/-- The number of a reference in its harvest. -/
abbrev RefId := Nat

/-- A name to look for in a file. An `external` name comes from another file, and is looked
for among what the file exports; any other one in its own scope. -/
structure Query where
  ref : RefId
  name : String
  external : Bool
deriving DecidableEq, Repr

/-- A place that the search for a declaration has come to. -/
structure Waypoint where
  file : String
  name : String
  external : Bool
deriving DecidableEq, Repr

/-- A mention of a type, with what is known of its declaration. -/
structure Reference where
  name : String
  kind : MentionKind
  /-- The file that holds the mention. -/
  file : String
  line : Nat
  /-- The declaration that holds the mention; none for a request. -/
  owner : Option Key
  /-- The slot that a new name may be written into. -/
  span : Option Span
  nested : Bool
  /-- The declaration, once it is found. -/
  target : Option Key
  /-- The places that the search has come to. -/
  waypoints : List Waypoint
deriving Repr

namespace Reference

/-- Whether the declaration is found. -/
def isResolved (r : Reference) : Bool := r.target.isSome

/-- The reference of a request. -/
def ofRequest (file name : String) (span : Option Span) (line : Nat) : Reference :=
  ⟨name, .root, file, line, none, span, false, none, []⟩

/-- The reference of a mention in a declaration. -/
def ofMention (owner : Key) (line : Nat) (m : Mention) : Reference :=
  ⟨m.name, m.kind, owner.file, line, some owner, some m.span, m.nested, none, []⟩

end Reference

end TypeGraft
