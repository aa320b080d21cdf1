import TypeGraft.Resolution
import TypeGraft.Splice

/-!
# Extraction

`TypeGraft.extract` writes the block for types that a file declares.

* `TypeGraft.Harvest.search` looks for requested types and for all that they need.
* `TypeGraft.Harvest.searchAndSplice` does so and then splices.
* `TypeGraft.Run` is what is left of it: the outcome, the files that were read and the log.
-/

namespace TypeGraft

/-- How an operation ended, with the files that it asked for and what happened. -/
structure Run (α : Type) where
  outcome : Except Failure α
  reads : List String
  events : List Event

/-- A run that ended with a harvest. -/
def Harvest.finish {α : Type} (s : Harvest) (outcome : Except Failure α) : Run α :=
  ⟨outcome, s.reads, s.events⟩

/-- A type that is asked for: its name, the slot in which it is named and the line. -/
structure RootRequest where
  name : String
  span : Option Span
  line : Nat
deriving DecidableEq, Repr

namespace Harvest

/-- Look for requested types, starting in a file. -/
def search (world : World) (s : Harvest) (outline : Outline) (requests : List RootRequest)
    (external : Bool) : Harvest × Except Failure Unit :=
  let resolution := Resolution.begin_ s outline
    (requests.map fun r => (r.name, r.span, r.line)) external
  match Resolution.run world (world.places.length + 2) resolution with
  | .finished s => (s, .ok ())
  | .failed s failure => (s, .error failure)
  | .unfinished r => (r.harvest, .error .unfinished)

/-- Look for requested types and splice what was found. -/
def searchAndSplice (world : World) (s : Harvest) (outline : Outline) (requests : List RootRequest)
    (external : Bool) (clean : Cleaning) : Harvest × Except Failure (Orders × Splice) :=
  match s.search world outline requests external with
  | (s, .error failure) => (s, .error failure)
  | (s, .ok ()) =>
    let (s, orders) := s.orders
    match s.splice orders clean with
    | .error failure => (s, .error failure)
    | .ok (s, splice) => (s, .ok (orders, splice))

/-- The names that the declarations in broken circles go by. -/
def circleNames (s : Harvest) (orders : Orders) : List (List String) :=
  orders.circles.map fun circle => List.map s.newNameOf circle

/-- The files that were read, without the script that asks for types. -/
def loaded (s : Harvest) : List String := (s.files.map (·.1)).filter fun path => !s.isEntryFile path

end Harvest

/-- The block for some types, and how it came about. -/
structure Extraction where
  block : String
  /-- The names of the declarations in the block. -/
  emitted : List String
  /-- The requested names that were not found. -/
  unresolved : List String
  /-- The files that were read. -/
  loaded : List String
  /-- The circles of interfaces that were broken. -/
  cycles : List (List String)
deriving Repr

/-- The requests for the types that a file exports under some names. -/
def exportRequests (names : List String) : List RootRequest :=
  names.map fun name => ⟨name, none, 1⟩

/-- Write the block for the types that the file at an absolute path exports under some
names. -/
def extract (world : World) (strict : Bool) (path : String) (names : List String) :
    Run Extraction :=
  match (Harvest.start strict none).outlineOf world path with
  | (s, .error failure) => s.finish (.error failure)
  | (s, .ok outline) =>
    match s.searchAndSplice world outline (exportRequests names) true .none with
    | (s, .error failure) => s.finish (.error failure)
    | (s, .ok (orders, splice)) =>
      s.finish (.ok
        { block := splice.block
          emitted := splice.emitted
          unresolved := s.missingRequests
          loaded := s.loaded
          cycles := s.circleNames orders })

end TypeGraft
