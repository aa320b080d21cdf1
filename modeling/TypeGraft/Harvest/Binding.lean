import TypeGraft.Harvest.Naming

/-!
# Filling slots

What becomes of a reference once its declaration is known.

* `TypeGraft.Harvest.link` writes the name of the declaration into the slot, where it differs
  from what stands there, and notes that the owner of the slot depends on the declaration. A
  base with members is noted as a base instead, and nothing is written.
* `TypeGraft.Harvest.leaveOut` writes an empty object type into the slot. This happens to a
  property whose type is just the name of something with members outside of the entry script.
* `TypeGraft.Harvest.fulfil` does one of the two to every reference that waits for a name, and
  to those that wait for other names that these references passed through.
-/

namespace TypeGraft.Harvest

/-- Whether a reference to a declaration is replaced by an empty object type. -/
def leavesOut (s : Harvest) (r : Reference) (d : Declaration) : Bool :=
  r.nested && d.hasMembers && !s.isEntryFile d.file

/-- Resolve a reference. -/
def resolve (s : Harvest) (ref : RefId) (key : Key) : Harvest :=
  s.modifyReference ref fun r => { r with target := some key }

/-- Write a text into a slot of a declaration. -/
def fill (s : Harvest) (owner : Key) (span : Span) (text : String) : Harvest :=
  s.modifyGraft owner fun e => { e with replacements := e.replacements ++ [⟨span, text⟩] }

/-- The text of a span of a file. -/
def textOf (s : Harvest) (file : String) (span : Span) : String :=
  ((s.files.get? file).map (·.text span)).getD ""

/-- Link the reference of a request: its slot gets the name of the declaration. -/
def linkRequest (s : Harvest) (r : Reference) (newName : String) : Harvest :=
  match r.span with
  | some span =>
    if newName = r.name then s
    else { s with rootEdits := s.rootEdits ++ [⟨span, newName⟩] }
  | none => s

/-- Note that an interface extends a declaration with members. -/
def linkParent (s : Harvest) (ref : RefId) (owner key : Key) : Harvest :=
  let order := (((s.parentRefs.get? owner).getD []).findIdx (· = ref))
  { s with
    inherits := s.inherits.addEdge owner key
    parentOrder := s.parentOrder.put (owner, key) order }

/-- Link a reference in a declaration: the declaration depends on what it refers to, and its
slot gets the name of that. -/
def linkSlot (s : Harvest) (r : Reference) (owner key : Key) (newName : String) : Harvest :=
  let s := { s with dependencies := s.dependencies.addEdge owner key }
  let s := s.modifyGraft owner fun e =>
    { e with dependencies := e.dependencies ++ [newName] }
  match r.span with
  | some span => if newName = s.textOf owner.file span then s else s.fill owner span newName
  | none => s

/-- Resolve a reference to a declaration that was taken in. -/
def link (s : Harvest) (ref : RefId) (key : Key) : Harvest :=
  match s.reference? ref, s.graft? key with
  | some r, some target =>
    if r.isResolved then s
    else
      let s := s.resolve ref key
      match r.owner with
      | none => s.linkRequest r target.newName
      | some owner =>
        if r.kind = .extends_ ∧ target.declaration.hasMembers then s.linkParent ref owner key
        else s.linkSlot r owner key target.newName
  | _, _ => s

/-- Resolve a reference to a declaration that is not taken in for it. -/
def leaveOut (s : Harvest) (ref : RefId) (key : Key) : Harvest :=
  match s.reference? ref with
  | some r =>
    if r.isResolved then s
    else
      let s := s.resolve ref key
      match r.owner, r.span with
      | some owner, some span => s.fill owner span "\x7b\x7d"
      | _, _ => s
  | none => s

/-- Resolve a reference one way or the other. -/
def deliver (s : Harvest) (d : Declaration) (key : Key) (ref : RefId) : Harvest :=
  match s.reference? ref with
  | some r => if s.leavesOut r d then s.leaveOut ref key else s.link ref key
  | none => s

/-- The records that a reference passed through, that stand for nothing yet and are not among
`work`. -/
def openRecords (s : Harvest) (ref : RefId) (work : List SynonymId) : List SynonymId :=
  (s.synonyms.trail ref).filter fun id =>
    id ∉ work && ((s.synonyms.get? id).map (·.target.isNone)).getD false

/-- Release what waits for the records in `work`, the last one first. Every step takes one
record off, and a record that stands for something is never put there. -/
def fulfilAll (d : Declaration) (key : Key) : (steps : Nat) → (work : List SynonymId) → Harvest →
    Harvest
  | 0, _, s => s
  | steps + 1, work, s =>
    match work.getLast? with
    | none => s
    | some id =>
      let (synonyms, ready, events) := s.synonyms.identify s.isResolved id key
      let s := { s with synonyms, events := s.events ++ events }
      let (s, work) := ready.foldl (fun (s, work) ref =>
        let s := s.deliver d key ref
        (s, work ++ s.openRecords ref work)) (s, work.dropLast)
      fulfilAll d key steps work s

/-- Let a record stand for a declaration that was taken in, and resolve all that waits for
it. -/
def fulfil (s : Harvest) (id : SynonymId) (key : Key) : Harvest :=
  match s.graft? key with
  | some target => fulfilAll target.declaration key (s.synonyms.records.length + 1) [id] s
  | none => s

end TypeGraft.Harvest
