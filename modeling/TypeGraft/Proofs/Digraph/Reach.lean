import Mathlib.Data.List.Nodup
import Mathlib.Logic.Relation
import TypeGraft.Digraph.Circles

/-!
# Paths in a graph

`TypeGraft.Digraph.Path` says that some edges lead from one node to another, and this file
says that `TypeGraft.Digraph.explore` and `TypeGraft.Digraph.component` compute it.

* `TypeGraft.Digraph.mem_explore_iff`: a walk lists exactly what can be reached.
* `TypeGraft.Digraph.mem_component_iff`: a component holds the nodes that a node reaches and
  is reached from.
* `TypeGraft.Digraph.WellFormed`: every edge has its two ends among the nodes, and each node
  is listed once. Adding nodes and edges keeps that, and so does restricting.

**The steps of a walk.** Every step takes one node off the list of those that are pending, and
only a node that is met for the first time puts its successors there. So the number of steps
that are left is bounded by what is pending and the edges that start outside of what was seen;
this sum is the measure of `TypeGraft.Digraph.exploreFrom_closed`.
-/

namespace TypeGraft.Digraph

variable {α : Type} {g : Digraph α}

/-! ### Edges and paths -/

/-- An edge leads from one node to another. -/
def Edge (g : Digraph α) (u v : α) : Prop := (u, v) ∈ g.edges

/-- **A path**: any number of edges, one after the other. -/
abbrev Path (g : Digraph α) : α → α → Prop := Relation.ReflTransGen g.Edge

theorem edge_reverse_iff {u v : α} : g.reverse.Edge u v ↔ g.Edge v u := by
  simp [reverse, Edge]

theorem path_reverse_iff {u v : α} : g.reverse.Path u v ↔ g.Path v u := by
  have hswap : g.reverse.Edge = Function.swap g.Edge := by
    funext u v
    exact propext edge_reverse_iff
  rw [Path, hswap, Relation.reflTransGen_swap]

/-- **A well-formed graph** lists each node once, and has the two ends of every edge among its
nodes. -/
structure WellFormed (g : Digraph α) : Prop where
  nodup : g.nodes.Nodup
  left : ∀ u v, g.Edge u v → u ∈ g.nodes
  right : ∀ u v, g.Edge u v → v ∈ g.nodes

theorem WellFormed.mem_of_path (h : g.WellFormed) {u v : α} (hu : u ∈ g.nodes)
    (hp : g.Path u v) : v ∈ g.nodes := by
  induction hp with
  | refl => exact hu
  | tail _ he _ => exact h.right _ _ he

theorem wellFormed_empty : (empty : Digraph α).WellFormed :=
  ⟨by simp [empty], by simp [empty, Edge], by simp [empty, Edge]⟩

/-! ### Parts of a graph -/

theorem edge_restrict_iff {p : α → Bool} {u v : α} :
    (g.restrict p).Edge u v ↔ g.Edge u v ∧ p u = true ∧ p v = true := by
  simp [restrict, Edge]

theorem WellFormed.restrict (h : g.WellFormed) (p : α → Bool) : (g.restrict p).WellFormed := by
  refine ⟨h.nodup.filter _, ?_, ?_⟩
  · intro u v he
    obtain ⟨he, hu, -⟩ := edge_restrict_iff.mp he
    exact List.mem_filter.mpr ⟨h.left u v he, hu⟩
  · intro u v he
    obtain ⟨he, -, hv⟩ := edge_restrict_iff.mp he
    exact List.mem_filter.mpr ⟨h.right u v he, hv⟩

/-- A graph is well-formed if its list of nodes and its list of edges fit. -/
theorem wellFormed_iff :
    g.WellFormed ↔ g.nodes.Nodup ∧ ∀ e ∈ g.edges, e.1 ∈ g.nodes ∧ e.2 ∈ g.nodes := by
  constructor
  · intro h
    exact ⟨h.nodup, fun e he => ⟨h.left e.1 e.2 he, h.right e.1 e.2 he⟩⟩
  · rintro ⟨hnodup, hends⟩
    exact ⟨hnodup, fun u v he => (hends (u, v) he).1, fun u v he => (hends (u, v) he).2⟩

variable [DecidableEq α]

instance : Decidable g.WellFormed := decidable_of_iff _ wellFormed_iff.symm

theorem edge_cut_iff {sets : List (List α)} {u v : α} :
    (g.cut sets).Edge u v ↔ g.Edge u v ∧ ∀ c ∈ sets, u ∈ c → v ∉ c := by
  simp [cut, Edge]

theorem WellFormed.cut (h : g.WellFormed) (sets : List (List α)) : (g.cut sets).WellFormed := by
  refine ⟨h.nodup, ?_, ?_⟩
  · intro u v he
    exact h.left u v (edge_cut_iff.mp he).1
  · intro u v he
    exact h.right u v (edge_cut_iff.mp he).1

/-! ### What a walk lists -/

theorem mem_successors_iff {u v : α} : v ∈ g.successors u ↔ g.Edge u v := by
  simp [successors, Edge]

/-- The edges that start outside of what was seen. -/
def unseenEdges (g : Digraph α) (seen : List α) : List (α × α) :=
  g.edges.filter fun e => e.1 ∉ seen

/-- Seeing a node for the first time uses up the edges that start there. -/
theorem length_unseenEdges {seen : List α} {v : α} (h : v ∉ seen) :
    (g.successors v).length + (g.unseenEdges (seen ++ [v])).length =
      (g.unseenEdges seen).length := by
  have hhere : (g.unseenEdges seen).filter (fun e => e.1 = v) =
      g.edges.filter fun e => e.1 = v := by
    rw [unseenEdges, List.filter_filter]
    refine List.filter_congr ?_
    intro e _
    by_cases hv : e.1 = v
    · simp [hv, h]
    · simp [hv]
  have hrest : (g.unseenEdges seen).filter (fun e => !decide (e.1 = v)) =
      g.unseenEdges (seen ++ [v]) := by
    rw [unseenEdges, List.filter_filter]
    refine List.filter_congr ?_
    intro e _
    by_cases hv : e.1 = v <;> by_cases hs : e.1 ∈ seen <;> simp [hv, hs]
  rw [successors, List.length_map, ← hhere, ← hrest]
  exact (List.length_eq_length_filter_add _).symm

/-- A walk keeps what was seen. -/
theorem mem_exploreFrom_of_mem_seen {steps : Nat} {pending seen : List α} {v : α}
    (h : v ∈ seen) : v ∈ g.exploreFrom steps pending seen := by
  induction steps generalizing pending seen with
  | zero => exact h
  | succ steps ih =>
    cases pending with
    | nil => exact h
    | cons w pending =>
      rw [exploreFrom]
      split
      · exact ih h
      · exact ih (List.mem_append_left _ h)

/-- A walk lists nothing but what was seen and what can be reached from what was pending. -/
theorem path_of_mem_exploreFrom {steps : Nat} {pending seen : List α} {v : α}
    (h : v ∈ g.exploreFrom steps pending seen) :
    v ∈ seen ∨ ∃ u ∈ pending, g.Path u v := by
  induction steps generalizing pending seen with
  | zero => exact Or.inl h
  | succ steps ih =>
    cases pending with
    | nil => exact Or.inl h
    | cons w pending =>
      rw [exploreFrom] at h
      split at h
      · rcases ih h with hs | ⟨u, hu, hp⟩
        · exact Or.inl hs
        · exact Or.inr ⟨u, List.mem_cons_of_mem _ hu, hp⟩
      · rcases ih h with hs | ⟨u, hu, hp⟩
        · rcases List.mem_append.mp hs with hs | hs
          · exact Or.inl hs
          · rw [List.mem_singleton.mp hs]
            exact Or.inr ⟨w, List.mem_cons_self, Relation.ReflTransGen.refl⟩
        · rcases List.mem_append.mp hu with hu | hu
          · exact Or.inr ⟨w, List.mem_cons_self, hp.head (mem_successors_iff.mp hu)⟩
          · exact Or.inr ⟨u, List.mem_cons_of_mem _ hu, hp⟩

/-- **A walk with enough steps misses nothing**: it lists all that was pending, and with every
node the successors of that node. -/
theorem exploreFrom_closed (steps : Nat) (pending seen : List α)
    (hsteps : pending.length + (g.unseenEdges seen).length ≤ steps)
    (hseen : ∀ u ∈ seen, ∀ v, g.Edge u v → v ∈ seen ∨ v ∈ pending) :
    (∀ v ∈ pending, v ∈ g.exploreFrom steps pending seen) ∧
      ∀ u ∈ g.exploreFrom steps pending seen, ∀ v, g.Edge u v →
        v ∈ g.exploreFrom steps pending seen := by
  -- each step takes a node off the list, and what it puts there comes from the edges that are left
  induction steps generalizing pending seen with
  | zero =>
    have hnil : pending = [] := List.eq_nil_of_length_eq_zero (by omega)
    subst hnil
    exact ⟨by simp, fun u hu v he => (hseen u hu v he).elim id fun h => absurd h (by simp)⟩
  | succ steps ih =>
    cases pending with
    | nil =>
      exact ⟨by simp, fun u hu v he => (hseen u hu v he).elim id fun h => absurd h (by simp)⟩
    | cons w pending =>
      rw [List.length_cons] at hsteps
      rw [exploreFrom]
      split
      · next hw =>
        obtain ⟨h1, h2⟩ := ih pending seen (by omega) fun u hu v he => by
          rcases hseen u hu v he with h | h
          · exact Or.inl h
          · rcases List.mem_cons.mp h with rfl | h
            · exact Or.inl hw
            · exact Or.inr h
        refine ⟨?_, h2⟩
        intro v hv
        rcases List.mem_cons.mp hv with rfl | hv
        · exact mem_exploreFrom_of_mem_seen hw
        · exact h1 v hv
      · next hw =>
        have hmeasure := length_unseenEdges (g := g) hw
        obtain ⟨h1, h2⟩ := ih (g.successors w ++ pending) (seen ++ [w])
          (by rw [List.length_append]; omega) fun u hu v he => by
            rcases List.mem_append.mp hu with hu | hu
            · rcases hseen u hu v he with h | h
              · exact Or.inl (List.mem_append_left _ h)
              · rcases List.mem_cons.mp h with rfl | h
                · exact Or.inl (List.mem_append_right _ (List.mem_singleton.mpr rfl))
                · exact Or.inr (List.mem_append_right _ h)
            · rw [List.mem_singleton.mp hu] at he
              exact Or.inr (List.mem_append_left _ (mem_successors_iff.mpr he))
        refine ⟨?_, h2⟩
        intro v hv
        rcases List.mem_cons.mp hv with rfl | hv
        · exact mem_exploreFrom_of_mem_seen
            (List.mem_append_right _ (List.mem_singleton.mpr rfl))
        · exact h1 v (List.mem_append_right _ hv)

/-- **A walk lists exactly what can be reached.** -/
theorem mem_explore_iff {from_ : List α} {v : α} :
    v ∈ g.explore from_ ↔ ∃ u ∈ from_, g.Path u v := by
  constructor
  · intro h
    exact (path_of_mem_exploreFrom h).resolve_left (by simp)
  · rintro ⟨u, hu, hp⟩
    obtain ⟨h1, h2⟩ := exploreFrom_closed (g := g) (from_.length + g.edges.length)
      from_ [] (by simp [unseenEdges]) (by simp)
    induction hp with
    | refl => exact h1 u hu
    | tail _ he ih => exact h2 _ ih _ he

theorem mem_descendants_iff {u v : α} : v ∈ g.descendants u ↔ g.Path u v ∧ v ≠ u := by
  simp [descendants, mem_explore_iff]

theorem mem_component_iff {u v : α} :
    v ∈ g.component u ↔ v ∈ g.nodes ∧ g.Path u v ∧ g.Path v u := by
  simp [component, mem_explore_iff, path_reverse_iff]

/-! ### Adding nodes and edges -/

theorem mem_nodes_addNode {u v : α} : u ∈ (g.addNode v).nodes ↔ u ∈ g.nodes ∨ u = v := by
  rw [addNode]
  split
  · next hv =>
    refine ⟨Or.inl, ?_⟩
    rintro (h | rfl)
    · exact h
    · exact hv
  · simp

theorem edge_addNode_iff {u v w : α} : (g.addNode w).Edge u v ↔ g.Edge u v := by
  rw [addNode]
  split <;> rfl

theorem WellFormed.addNode (h : g.WellFormed) (v : α) : (g.addNode v).WellFormed := by
  refine ⟨?_, ?_, ?_⟩
  · rw [Digraph.addNode]
    split
    · exact h.nodup
    · next hv => exact List.nodup_append.2 ⟨h.nodup, by simp, by grind⟩
  · intro u w he
    exact mem_nodes_addNode.mpr (Or.inl (h.left u w (edge_addNode_iff.mp he)))
  · intro u w he
    exact mem_nodes_addNode.mpr (Or.inl (h.right u w (edge_addNode_iff.mp he)))

theorem edge_addEdge_iff {u v a b : α} :
    (g.addEdge a b).Edge u v ↔ g.Edge u v ∨ (u = a ∧ v = b) := by
  have hkeep : ((g.addNode a).addNode b).Edge u v ↔ g.Edge u v :=
    edge_addNode_iff.trans edge_addNode_iff
  rw [addEdge]
  split
  · next hab =>
    have hab' : g.Edge a b := edge_addNode_iff.mp (edge_addNode_iff.mp hab)
    rw [hkeep]
    refine ⟨Or.inl, ?_⟩
    rintro (h | ⟨rfl, rfl⟩)
    · exact h
    · exact hab'
  · rw [← hkeep]
    simp [Edge]

theorem mem_nodes_addEdge {u a b : α} :
    u ∈ (g.addEdge a b).nodes ↔ u ∈ g.nodes ∨ u = a ∨ u = b := by
  have hnodes : (g.addEdge a b).nodes = ((g.addNode a).addNode b).nodes := by
    rw [addEdge]
    split <;> rfl
  rw [hnodes, mem_nodes_addNode, mem_nodes_addNode, or_assoc]

theorem WellFormed.addEdge (h : g.WellFormed) (a b : α) : (g.addEdge a b).WellFormed := by
  refine ⟨?_, ?_, ?_⟩
  · have hnodes := ((h.addNode a).addNode b).nodup
    rw [Digraph.addEdge]
    split
    · exact hnodes
    · exact hnodes
  · intro u v he
    rcases edge_addEdge_iff.mp he with he | ⟨rfl, -⟩
    · exact mem_nodes_addEdge.mpr (Or.inl (h.left u v he))
    · exact mem_nodes_addEdge.mpr (Or.inr (Or.inl rfl))
  · intro u v he
    rcases edge_addEdge_iff.mp he with he | ⟨-, rfl⟩
    · exact mem_nodes_addEdge.mpr (Or.inl (h.right u v he))
    · exact mem_nodes_addEdge.mpr (Or.inr (Or.inr rfl))

end TypeGraft.Digraph
