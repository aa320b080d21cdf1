import TypeGraft.Harvest.Reference
import TypeGraft.Table
import TypeGraft.Event

/-!
# Names that stand for one declaration

A `TypeGraft.Synonym` is a name that was looked for in a file, with the references that wait
for its declaration. `TypeGraft.Synonyms` holds those of a harvest.

* `TypeGraft.Synonyms.wait` lets a reference wait for a name.
* `TypeGraft.Synonyms.identify` says which declaration a name stands for, and hands out the
  references that waited for it.

**Representatives.** Of the names in a file that stand for one declaration the first one
represents all; it absorbs each later one together with what waits for it. A warning says so,
unless one of the two is the name of the default export. What a file exports and what it sees itself
are kept apart.
-/

namespace TypeGraft

/-- The number of a synonym in its harvest. -/
abbrev SynonymId := Nat

/-- A name that was looked for in a file. -/
structure Synonym where
  /-- Where the name was looked for. -/
  place : Waypoint
  /-- The line to name in messages. -/
  line : Nat
  /-- The declaration that the name stands for, once it is found. -/
  target : Option Key
  /-- The synonym that represents this one. -/
  absorbedBy : Option SynonymId
  /-- The references that wait, in order. -/
  pending : List RefId
deriving Repr

/-- The names that were looked for, in all files. -/
structure Synonyms where
  /-- The names in the order in which they came up. -/
  records : List Synonym
  /-- The one that represents the names of a declaration, by the file and by whether it is seen
  from outside of it. -/
  representatives : Table (String × Bool × Key) SynonymId
  /-- The synonyms that each reference passed through. -/
  trails : Table RefId (List SynonymId)
deriving Repr

namespace Synonyms

/-- No name was looked for. -/
def empty : Synonyms := ⟨[], [], []⟩

/-- The synonym of a number. -/
def get? (a : Synonyms) (id : SynonymId) : Option Synonym := a.records[id]?

/-- Change the synonym of a number. -/
def modify (a : Synonyms) (id : SynonymId) (change : Synonym → Synonym) : Synonyms :=
  { a with records := a.records.modify id change }

/-- The synonyms that a reference passed through. -/
def trail (a : Synonyms) (ref : RefId) : List SynonymId := (a.trails.get? ref).getD []

/-- Note that a reference passed through a synonym. -/
def follow (a : Synonyms) (ref : RefId) (id : SynonymId) : Synonyms :=
  let trail := a.trail ref
  if id ∈ trail then a else { a with trails := a.trails.put ref (trail ++ [id]) }

/-- The synonym of a place, which is made if there is none. -/
def recordAt (a : Synonyms) (place : Waypoint) (line : Nat) : Synonyms × SynonymId :=
  let id := a.records.findIdx (·.place = place)
  if id < a.records.length then (a, id)
  else ({ a with records := a.records ++ [⟨place, line, none, none, []⟩] }, id)

/-- Let a reference wait at a place; if the synonym of the place was absorbed by another one, it
waits there. A reference that `isResolved` only leaves its trail. -/
def wait (a : Synonyms) (isResolved : Bool) (ref : RefId) (place : Waypoint) (line : Nat) :
    Synonyms × SynonymId :=
  let (a, id) := a.recordAt place line
  let id := ((a.get? id).bind (·.absorbedBy)).getD id
  let a := if isResolved then a
    else a.modify id fun r => { r with pending := r.pending ++ [ref] }
  (a.follow ref id, id)

/-- The synonym that represents the names of a declaration beside a given one, which does so
itself if there is none yet. -/
def representative (a : Synonyms) (id : SynonymId) (place : Waypoint) (key : Key) :
    Synonyms × SynonymId :=
  let slot := (place.file, place.external, key)
  match a.representatives.get? slot with
  | some other => (a, other)
  | none => ({ a with representatives := a.representatives.put slot id }, id)

/-- Let a synonym be absorbed by the one that represents it. -/
def absorb (a : Synonyms) (id : SynonymId) (record : Synonym) (into : SynonymId)
    (first : Synonym) : Synonyms × List Event :=
  let events :=
    if record.place.name = "default" ∨ first.place.name = "default" then []
    else [.redundantAlias record.place.file record.line record.place.name first.place.name
      first.line]
  let a := a.modify id fun r => { r with absorbedBy := some into, pending := [] }
  (a.modify into fun r => { r with pending := r.pending ++ record.pending }, events)

/-- Let a synonym stand for a declaration. The references that waited and are not resolved yet
are handed out. -/
def identify (a : Synonyms) (isResolved : RefId → Bool) (id : SynonymId) (key : Key) :
    Synonyms × List RefId × List Event :=
  match a.get? id with
  | none => (a, [], [])
  | some record =>
    let a := a.modify id fun r => { r with target := some key }
    let (a, into) := a.representative id record.place key
    let (a, events) :=
      match a.get? into with
      | some first =>
        if into ≠ id ∧ record.absorbedBy.isNone then a.absorb id record into first else (a, [])
      | none => (a, [])
    let ready := (((a.get? into).map (·.pending)).getD []).filter fun r => !isResolved r
    (a.modify into fun r => { r with pending := [] }, ready, events)

/-- Let all synonyms that a reference passed through, and that stand for nothing yet, stand for
a declaration. -/
def settle (a : Synonyms) (ref : RefId) (key : Key) : Synonyms :=
  (a.trail ref).foldl (fun a id =>
    a.modify id fun r => if r.target.isNone then { r with target := some key } else r) a

/-- The names that a file sees and whose declaration is known, with their declarations. -/
def knownNames (a : Synonyms) (file : String) : Table String Key :=
  a.records.filterMap fun r =>
    if r.place.file = file ∧ r.place.external = false then
      r.target.map fun key => (r.place.name, key)
    else none

/-- The references that wait and are not resolved, each once. -/
def waiting (a : Synonyms) (isResolved : RefId → Bool) : List RefId :=
  distinct (a.records.flatMap fun r => r.pending.filter fun ref => !isResolved ref)

end Synonyms

end TypeGraft
