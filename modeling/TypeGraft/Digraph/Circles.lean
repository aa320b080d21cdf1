import TypeGraft.Digraph.Basic

/-!
# Circles in a graph

* `TypeGraft.Digraph.circles` lists the components in which a path leads back to its start,
  the largest first.
* `TypeGraft.Digraph.cut` takes away the edges inside of them.
-/

namespace TypeGraft.Digraph

variable {α : Type} [DecidableEq α]

/-- The order of lists by their first difference; a list comes before its extensions. -/
def listLe (le : α → α → Bool) : List α → List α → Bool
  | [], _ => true
  | _ :: _, [] => false
  | a :: as, b :: bs => if a = b then listLe le as bs else le a b

/-- Components with at least `minSize` nodes in which a path leads back to its start, each
sorted, in the order of decreasing size, and of one size in the order of their nodes. -/
def circles (le : α → α → Bool) (minSize : Nat) (g : Digraph α) : List (List α) :=
  let found := g.components.filter fun c =>
    minSize ≤ c.length && (1 < c.length || c.any fun v => g.hasEdge v v)
  (found.map (·.mergeSort le)).mergeSort fun a b =>
    b.length < a.length || (a.length == b.length && listLe le a b)

/-- The graph without the edges inside of some sets of nodes. -/
def cut (g : Digraph α) (sets : List (List α)) : Digraph α :=
  { g with edges := g.edges.filter fun e => !(sets.any fun c => e.1 ∈ c && e.2 ∈ c) }

end TypeGraft.Digraph
