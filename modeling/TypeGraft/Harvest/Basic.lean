import TypeGraft.Harvest.Synonyms
import TypeGraft.Outline
import TypeGraft.Replacement
import TypeGraft.Digraph.Basic

/-!
# What a search has found

A `TypeGraft.Harvest` is what one search for types has brought in so far: the outlines of the
files that were read, the references, the declarations that were found and the names given to
them, and the graphs of what depends on what.

A declaration that was found is kept as a `TypeGraft.Graft`, with its new name and what is to be
written into its slots.
-/

namespace TypeGraft

/-- A declaration that is taken into the block, or that stays in the entry script. -/
structure Graft where
  declaration : Declaration
  /-- The name it goes by. -/
  newName : String
  /-- The names of what it depends on. -/
  dependencies : List String
  /-- What is written into its slots. -/
  replacements : List Replacement

/-- Whether a replacement lies in the body of a declaration. -/
def Declaration.holds (d : Declaration) (r : Replacement) : Bool := d.body.contains r.span

/-- The replacements in the body of the declaration. The types that it extends are written
apart from its body. -/
def Graft.replacementsInBody (e : Graft) : List Replacement :=
  e.replacements.filter e.declaration.holds

/-- What a search has found so far. -/
structure Harvest where
  /-- Whether a name that a file declares twice is an error. -/
  strict : Bool
  /-- The script that asks for types, if there is one. -/
  entry : Option String
  /-- The outlines of the files that were read, in order. -/
  files : Table String Outline
  /-- The declarations that were found, in order. -/
  grafts : Table Key Graft
  /-- The names that are taken. -/
  takenNames : List String
  /-- The next number to try for a name. -/
  nextNumbers : Table String Nat
  synonyms : Synonyms
  /-- The references; the number of a reference is its place. -/
  references : List Reference
  /-- The references of the requests. -/
  roots : List RefId
  /-- What is written into the slots of the requests. -/
  rootEdits : List Replacement
  /-- The references of the types that each interface extends. -/
  parentRefs : Table Key (List RefId)
  /-- What each declaration refers to. -/
  dependencies : Digraph Key
  /-- What each interface extends, where that has members. -/
  inherits : Digraph Key
  /-- The place of the base in the list of what an interface extends. -/
  parentOrder : Table (Key × Key) Nat
  /-- The files that were asked for, in order. -/
  reads : List String
  /-- What happened so far. -/
  events : List Event

namespace Harvest

/-- Nothing is found yet. -/
def start (strict : Bool) (entry : Option String) : Harvest :=
  { strict, entry, files := [], grafts := [], takenNames := [], nextNumbers := []
    synonyms := .empty, references := [], roots := [], rootEdits := [], parentRefs := []
    dependencies := .empty, inherits := .empty, parentOrder := [], reads := [], events := [] }

/-- Add to the log. -/
def log (s : Harvest) (events : List Event) : Harvest := { s with events := s.events ++ events }

/-- The reference of a number. -/
def reference? (s : Harvest) (ref : RefId) : Option Reference := s.references[ref]?

/-- The declaration that a reference was resolved to. -/
def targetOf (s : Harvest) (ref : RefId) : Option Key := (s.reference? ref).bind (·.target)

/-- Whether a reference is resolved. -/
def isResolved (s : Harvest) (ref : RefId) : Bool := (s.targetOf ref).isSome

/-- Change a reference. -/
def modifyReference (s : Harvest) (ref : RefId) (change : Reference → Reference) : Harvest :=
  { s with references := s.references.modify ref change }

/-- Add references, whose numbers follow those that are there. -/
def addReferences (s : Harvest) (references : List Reference) : Harvest × List RefId :=
  ({ s with references := s.references ++ references },
    (List.range references.length).map (s.references.length + ·))

/-- Whether a file is the script that asks for types. -/
def isEntryFile (s : Harvest) (file : String) : Bool := s.entry == some file

/-- What was found under a key. -/
def graft? (s : Harvest) (key : Key) : Option Graft := s.grafts.get? key

/-- Change what was found under a key. -/
def modifyGraft (s : Harvest) (key : Key) (change : Graft → Graft) : Harvest :=
  { s with grafts := s.grafts.adjust change key }

/-- Add the outline of a file. -/
def addFile (s : Harvest) (outline : Outline) : Harvest :=
  { s with files := s.files.put outline.path outline }

/-- Make a script the one that asks for types. The names of its aliases and interfaces are
taken from the start. -/
def enter (s : Harvest) (outline : Outline) : Harvest :=
  let own := (outline.declarations.filter fun d => !d.2.isEnumeration).map (·.1)
  { s.addFile outline with
    entry := some outline.path
    takenNames := s.takenNames ++ own.filter (· ∉ s.takenNames) }

/-- The declarations that requests were resolved to, each once. -/
def requestedKeys (s : Harvest) : List Key := distinct (s.roots.filterMap s.targetOf)

/-- The references that found no declaration. -/
def unbound (s : Harvest) : List RefId := s.synonyms.waiting s.isResolved

/-- The requested names that were not found, each once. -/
def missingRequests (s : Harvest) : List String :=
  distinct ((s.roots.filter fun r => !s.isResolved r).filterMap fun r =>
    (s.reference? r).map (·.name))

/-- Whether an entry declaration is an interface that takes in the members of its bases. -/
def absorbsParents (s : Harvest) (d : Declaration) : Bool :=
  s.isEntryFile d.file && d.isInterface && 0 < s.inherits.outDegree d.key

end Harvest

end TypeGraft
