import TypeGraft.Splice.Merge

/-!
# The inlined block

`TypeGraft.Harvest.blockKeys` lists what goes into the block, and `TypeGraft.Harvest.block`
writes it, one declaration on a line of its own after the other.

**What stays.** An alias or an interface of the entry script stays in its place
(`Harvest.stays`), unless it is an interface that takes in the members of its bases: that
one is moved into the block (`Harvest.moved`). Enumerations are never in place, since the
block holds just the type of their values.

**What is still extended.** The head of an interface names those bases whose members were not
taken in.
-/

namespace TypeGraft.Harvest

/-- Whether an entry interface is written in the block, in place of its statement. -/
def moved (s : Harvest) (orders : Orders) (d : Declaration) : Bool :=
  orders.blockOrder.contains d.key && s.absorbsParents d

/-- Whether an entry declaration stays in its place. -/
def stays (s : Harvest) (orders : Orders) (d : Declaration) : Bool :=
  s.isEntryFile d.file && !d.isEnumeration && !s.moved orders d

/-- What goes into the block, in its order. -/
def blockKeys (s : Harvest) (orders : Orders) : List Key :=
  orders.blockOrder.filter fun key =>
    match s.graft? key with
    | some e => !s.stays orders e.declaration
    | none => false

/-- The types that an interface extends, each with its reference. -/
def heritages (s : Harvest) (d : Declaration) : List (Heritage × RefId) :=
  d.bases.zip ((s.parentRefs.get? d.key).getD [])

/-- Whether a declaration that was taken in has members. -/
def hasMembers (s : Harvest) (key : Key) : Bool :=
  ((s.graft? key).map (·.declaration.hasMembers)).getD false

/-- The text of what an interface extends, with its slots filled. -/
def heritageText (e : Graft) (heritage : Heritage) : Except Failure String :=
  let inside := e.replacements.filter fun r => heritage.span.contains r.span
  match Replacement.applyAll (Bytes.ofString heritage.text) heritage.span inside with
  | .error failure => .error failure
  | .ok bytes =>
    match bytes.toString? with
    | some text => .ok text
    | none => .error .undecodable

/-- What the head of an interface still extends. -/
def headParents (s : Harvest) (e : Graft) : Except Failure (List String) :=
  ((s.heritages e.declaration).filter fun c => !((s.targetOf c.2).any s.hasMembers)).mapM
    fun c => heritageText e c.1

/-- The text of a declaration under its new name. -/
def rendered (e : Graft) (bases : List String) (body : String) : String :=
  let d := e.declaration
  match d.shape with
  | .alias _ => s!"type {e.newName}{d.typeParameters} = {body};"
  | .interface _ _ =>
    let extends_ := if bases.isEmpty then "" else " extends " ++ String.intercalate ", " bases
    s!"interface {e.newName}{d.typeParameters}{extends_} {body}"
  | .enumeration => s!"type {e.newName} = {body};"

/-- Write one declaration of the block. -/
def render (s : Harvest) (bodies : Table Key Bytes) (key : Key) : Except Failure String :=
  match s.graft? key with
  | none => .ok ""
  | some e =>
    match s.headParents e with
    | .error failure => .error failure
    | .ok bases =>
      match ((bodies.get? key).getD []).toString? with
      | some body => .ok (rendered e bases body)
      | none => .error .undecodable

/-- Write the block. -/
def block (s : Harvest) (bodies : Table Key Bytes) (keys : List Key) : Except Failure String :=
  (keys.mapM (s.render bodies)).map (String.intercalate "\n")

end TypeGraft.Harvest
