/-!
# Directed graphs

A `TypeGraft.Digraph` lists its nodes and its edges in the order in which they were put in.

* `TypeGraft.Digraph.addEdge` adds an edge together with its ends.
* `TypeGraft.Digraph.explore` lists what can be reached from some nodes.
* `TypeGraft.Digraph.component` lists the nodes that a node reaches and is reached from.
* `TypeGraft.Digraph.components` lists all components, in the order in which a depth-first
  walk is done with them: every component comes after those that it leads to.
-/

namespace TypeGraft

/-- A directed graph with its nodes and edges in the order of their arrival. -/
structure Digraph (α : Type) where
  nodes : List α
  edges : List (α × α)

namespace Digraph

variable {α : Type} [DecidableEq α]

/-- The graph without nodes. -/
def empty : Digraph α := ⟨[], []⟩

/-- Add a node, unless it is there. -/
def addNode (g : Digraph α) (v : α) : Digraph α :=
  if v ∈ g.nodes then g else { g with nodes := g.nodes ++ [v] }

/-- Add an edge and its ends, unless they are there. -/
def addEdge (g : Digraph α) (u v : α) : Digraph α :=
  let g := (g.addNode u).addNode v
  if (u, v) ∈ g.edges then g else { g with edges := g.edges ++ [(u, v)] }

/-- Whether an edge leads from one node to another. -/
def hasEdge (g : Digraph α) (u v : α) : Bool := (u, v) ∈ g.edges

/-- The nodes that edges lead to from a node, in the order of the edges. -/
def successors (g : Digraph α) (u : α) : List α :=
  (g.edges.filter fun e => e.1 = u).map Prod.snd

/-- The number of edges from a node. -/
def outDegree (g : Digraph α) (u : α) : Nat := (g.successors u).length

/-- The number of edges to a node. -/
def inDegree (g : Digraph α) (v : α) : Nat := (g.edges.filter fun e => e.2 = v).length

/-- The part of the graph on the nodes with a property. -/
def restrict (g : Digraph α) (p : α → Bool) : Digraph α :=
  ⟨g.nodes.filter p, g.edges.filter fun e => p e.1 && p e.2⟩

/-- Visit what can be reached from `pending`, after what is `seen`. Every step takes one node
off `pending`, and a node puts its successors there only once. -/
def exploreFrom (g : Digraph α) : (steps : Nat) → (pending seen : List α) → List α
  | 0, _, seen => seen
  | _ + 1, [], seen => seen
  | steps + 1, v :: pending, seen =>
    if v ∈ seen then exploreFrom g steps pending seen
    else exploreFrom g steps (g.successors v ++ pending) (seen ++ [v])

/-- The nodes that can be reached from some nodes, themselves included. -/
def explore (g : Digraph α) (from_ : List α) : List α :=
  g.exploreFrom (from_.length + g.edges.length) from_ []

/-- The nodes that can be reached from a node, itself excluded. -/
def descendants (g : Digraph α) (u : α) : List α := (g.explore [u]).filter (· ≠ u)

/-- The graph with its edges turned around. -/
def reverse (g : Digraph α) : Digraph α := ⟨g.nodes, g.edges.map fun e => (e.2, e.1)⟩

/-- The nodes that a node reaches and is reached from, in the order of the graph. -/
def component (g : Digraph α) (u : α) : List α :=
  let reached := g.explore [u]
  let reaching := g.reverse.explore [u]
  g.nodes.filter fun v => v ∈ reached && v ∈ reaching

/-- A depth-first walk so far: the nodes met, and the nodes it is done with, in order. -/
structure Walk (α : Type) where
  met : List α
  done : List α

/-- Walk depth-first from a node, at most `depth` nodes deep. -/
def walkFrom (g : Digraph α) : (depth : Nat) → Walk α → α → Walk α
  | 0, walk, _ => walk
  | depth + 1, walk, v =>
    if v ∈ walk.met then walk
    else
      let walk := (g.successors v).foldl (walkFrom g depth) { walk with met := v :: walk.met }
      { walk with done := walk.done ++ [v] }

/-- The nodes in the order in which a depth-first walk is done with them. -/
def finished (g : Digraph α) : List α :=
  (g.nodes.foldl (walkFrom g (g.nodes.length + 1)) ⟨[], []⟩).done

/-- Components of the graph, each at the place of the last of its nodes in a list. -/
def componentsAlong (g : Digraph α) : List α → List (List α)
  | [] => []
  | v :: rest =>
    let c := g.component v
    if rest.any (· ∈ c) then componentsAlong g rest else c :: componentsAlong g rest

/-- The strongly connected components, each after those that it leads to. -/
def components (g : Digraph α) : List (List α) := g.componentsAlong g.finished

end Digraph

end TypeGraft
