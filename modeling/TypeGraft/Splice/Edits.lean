import TypeGraft.Splice.Block
import TypeGraft.Splice.Cleaning

/-!
# The edits of the entry script

`TypeGraft.Harvest.edits` lists what is to be changed in the entry script, in reading order:

* the slots of the requests, where what they ask for goes by another name;
* the statements of interfaces that went into the block, which are removed, and of those that
  were only there to be merged, if these are to be cleaned away;
* the slots of the declarations that stay in place, and the names of their bases;
* the imports, which lose the names that the block declares now.
-/

namespace TypeGraft

namespace Harvest

/-- Remove a span of the entry script. -/
def erasure (clean : Cleaning) (source : Bytes) (span : Span) : Replacement :=
  let after := source.drop (Span.clamp source.length span.stop)
  let extra : Int :=
    if !clean.lineBreaks then 0
    else match after with
      | 13 :: 10 :: _ => 2
      | 10 :: _ => 1
      | _ => 0
  ⟨⟨span.start, span.stop + extra⟩, ""⟩

/-- The entry interfaces that were only there to be merged into others: nothing asks for them
or depends on them, and something extends them. -/
def idleInterfaces (s : Harvest) (orders : Orders) (clean : Cleaning) : List Key :=
  if !clean.interfaces then []
  else
    let roots := s.requestedKeys
    (s.grafts.filter fun (key, e) =>
      s.stays orders e.declaration && e.declaration.isInterface &&
        !orders.blockOrder.contains key && !roots.contains key &&
        0 < s.inherits.inDegree key && s.dependencies.inDegree key == 0).map (·.1)

/-- The bases with members of an interface in place that are declared elsewhere, with whether
they went into the block. -/
def foreignParents (s : Harvest) (inBlock : List Key) (d : Declaration) :
    List (Heritage × Key × Bool) :=
  (s.heritages d).filterMap fun (heritage, ref) =>
    (s.targetOf ref).bind fun key =>
      if !s.isEntryFile key.file && s.hasMembers key then some (heritage, key, inBlock.contains key)
      else none

/-- The new names for the bases of an interface in place that went into the block. -/
def renamedParents (s : Harvest) (inBlock : List Key) (d : Declaration) : List Replacement :=
  (s.foreignParents inBlock d).filterMap fun (heritage, key, isInBlock) =>
    let newName := s.newNameOf key
    if isInBlock && newName != heritage.name then some ⟨heritage.slot, newName⟩ else none

/-- The names of the bases of an interface in place that did not go into the block. Their
imports are kept. -/
def keptParents (s : Harvest) (inBlock : List Key) (d : Declaration) : List String :=
  (s.foreignParents inBlock d).filterMap fun (heritage, _, isInBlock) =>
    if isInBlock then none else some heritage.name

/-- Whether an import of a name is dropped: what it stands for was found, it is not an
enumeration, and the name is not kept. -/
def drops (s : Harvest) (resolved : Table String Key) (kept : List String) (name : String) : Bool :=
  match resolved.get? name with
  | none => false
  | some key =>
    !kept.contains name && !((s.graft? key).any fun e => e.declaration.isEnumeration)

/-- The text of an import statement with some of its names. -/
def importText (stmt : Import) (default : Option Binding) (named : List String) :
    String :=
  let parts := (default.map (·.name)).toList ++ stmt.wholeModule.toList ++
    (if named.isEmpty then [] else ["\x7b " ++ String.intercalate ", " named ++ " \x7d"])
  "import " ++ (if stmt.typeOnly then "type " else "") ++ String.intercalate ", " parts ++
    " from " ++ stmt.quotedModule ++ (if stmt.terminated then ";" else "")

/-- What becomes of an import statement, if it loses names. -/
def trimming? (s : Harvest) (clean : Cleaning) (source : Bytes) (resolved : Table String Key)
    (kept : List String) (stmt : Import) : Option Replacement :=
  let default := stmt.default.filter fun b => !s.drops resolved kept b.name
  let named := stmt.named.filter fun n => !s.drops resolved kept n.1.name
  if default.isSome == stmt.default.isSome && named.length == stmt.named.length then none
  else if default.isNone && named.isEmpty && stmt.wholeModule.isNone then
    some (erasure clean source stmt.span)
  else some ⟨stmt.span, importText stmt default (named.map (·.2))⟩

/-- What becomes of a declaration of the entry script. -/
def declarationEdits (s : Harvest) (orders : Orders) (clean : Cleaning) (inBlock cleaned : List Key)
    (source : Bytes) (e : Graft) : List Replacement :=
  let d := e.declaration
  if cleaned.contains d.key || s.moved orders d then [erasure clean source d.statement]
  else if s.stays orders d then e.replacements ++ s.renamedParents inBlock d
  else []

/-- The edits of the entry script. -/
def edits (s : Harvest) (orders : Orders) (clean : Cleaning) : List Replacement :=
  match s.entry.bind s.files.get? with
  | none => []
  | some outline =>
    let inBlock := s.blockKeys orders
    let cleaned := s.idleInterfaces orders clean
    let own := (s.grafts.map (·.2)).filter fun e => s.isEntryFile e.declaration.file
    let staying := own.filter fun e =>
      !cleaned.contains e.declaration.key && s.stays orders e.declaration
    let kept := staying.flatMap fun e => s.keptParents inBlock e.declaration
    let resolved := s.synonyms.knownNames outline.path
    Replacement.inOrder (s.rootEdits ++
      own.flatMap (s.declarationEdits orders clean inBlock cleaned outline.source) ++
      outline.importList.filterMap
        (s.trimming? clean outline.source resolved kept))

end Harvest

end TypeGraft
