import TypeGraft.Digraph.Basic
import TypeGraft.Table

/-!
# Orders of a graph

* `TypeGraft.Digraph.successorsFirst` orders the nodes that can be reached from some seeds so
  that every node comes after those that it leads to, but for the nodes that lead back to it.
  The nodes of one component stand together.
* `TypeGraft.Digraph.withInherited` adds to a graph of uses what a node inherits: the uses of
  all that it extends.

**How the order is found.** The components are numbered, and a walk in breadth assigns to each
the length of a longest path from a seed: whenever a longer path is found, the component is
put at the end once more. Read backwards, the last mention of each component counts.
-/

namespace TypeGraft.Digraph

variable {α : Type} [DecidableEq α]

/-- A walk in breadth over numbered components. -/
structure Layering where
  /-- What is to be visited, each with the depth it was put there for. -/
  queue : List (Nat × Nat)
  /-- The greatest depth found of each component. -/
  depth : Table Nat Nat
  /-- All that was ever put into the queue, in order. -/
  visits : List Nat

namespace Layering

/-- Put a component into the queue, if the depth is greater than any found before. -/
def deepen (layers : Layering) (component depth : Nat) : Layering :=
  match layers.depth.get? component with
  | some found => if found < depth then enter else layers
  | none => enter
where
  /-- The walk with the component in the queue. -/
  enter : Layering :=
    ⟨layers.queue ++ [(component, depth)], layers.depth.put component depth,
      layers.visits ++ [component]⟩

/-- Put in a component to start from. -/
def start (layers : Layering) (component : Nat) : Layering :=
  if layers.depth.has component then layers else layers.deepen component 0

/-- Visit what is in the queue, in at most `steps` steps. -/
def run (next : Nat → List Nat) : (steps : Nat) → Layering → Layering
  | 0, layers => layers
  | steps + 1, layers =>
    match layers.queue with
    | [] => layers
    | (component, depth) :: queue =>
      let layers := { layers with queue }
      if layers.depth.get? component = some depth then
        run next steps ((next component).foldl (fun l c => l.deepen c (depth + 1)) layers)
      else run next steps layers

end Layering

/-- The number of the component that holds a node. -/
def numberOf (components : List (List α)) (v : α) : Nat := components.findIdx (v ∈ ·)

/-- The numbers of the components that a component leads to, in ascending order. -/
def nextComponents (g : Digraph α) (components : List (List α)) (number : Nat) : List Nat :=
  let members := (components[number]?).getD []
  let numbers := (members.flatMap g.successors).map (numberOf components)
  (List.range components.length).filter fun n => n != number && numbers.contains n

/-- The numbers of all components that can be reached from some, each after those that it
leads to. -/
def layered (next : Nat → List Nat) (count : Nat) (starts : List Nat) : List Nat :=
  let layers := Layering.run next ((count + 1) * (count + 1))
    (starts.foldl Layering.start ⟨[], [], []⟩)
  distinct layers.visits.reverse

/-- The nodes that can be reached from some seeds, each after those that it leads to. Seeds
that are not in the graph do not count. -/
def successorsFirst (g : Digraph α) (seeds : List α) : List α :=
  let seeds := (distinct seeds).filter (· ∈ g.nodes)
  let reached := g.explore seeds
  let part := g.restrict (· ∈ reached)
  let components := part.components
  (layered (part.nextComponents components) components.length
    (seeds.map (numberOf components))).flatMap fun n => (components[n]?).getD []

/-- A graph of uses in which every node also uses what the nodes that it extends use. -/
def withInherited (uses extends_ : Digraph α) : Digraph α :=
  (extends_.nodes.filter (· ∈ uses.nodes)).foldl (fun g derived =>
    (extends_.descendants derived).foldl (fun g base =>
      ((uses.successors base).filter (· ≠ derived)).foldl (fun g used => g.addEdge derived used) g)
      g) uses

end TypeGraft.Digraph
