import Mathlib.Data.List.Flatten
import TypeGraft.Proofs.Digraph.Components
import TypeGraft.Proofs.Digraph.Layers

/-!
# Successors first

What `TypeGraft.Digraph.successorsFirst` and `TypeGraft.Digraph.withInherited` come to, in terms
of the paths of the graph.

* `TypeGraft.Digraph.OrderedFrom`: an order of what some seeds lead to, in which successors come
  first and components stay together.
* `TypeGraft.Digraph.orderedFrom_numbersFrom`: components in the order of a walk in breadth make up
  such an order, however they are numbered.
* `TypeGraft.Digraph.orderedFrom_of_splitBy`: so does `TypeGraft.Digraph.successorsFirst`, and the
  walk ends by itself.
* `TypeGraft.Digraph.edge_withInherited_iff`: a node also uses what is used by all that it
  extends.

**No circles between components.** The walk in breadth is over the numbers of components, and a
number that leads to another is not led back to: the nodes of both would make one component
(`TypeGraft.Digraph.SplitBy.not_transGen_leads`).

**Which numbers the components have** depends on how they were found, and so does the order of the
nodes in one component. Nothing here relies on either: the part that the seeds lead to may list its
nodes in any order (`TypeGraft.Digraph.PartFrom`), and its components may come in any order
(`TypeGraft.Digraph.SplitBy`).
-/

namespace TypeGraft.Digraph

variable {α : Type} [DecidableEq α] {g : Digraph α}

/-! ### Steps between components -/

namespace SplitBy

variable {parts : List (List α)}

theorem leads_nextComponents_iff (h : g.SplitBy parts) (hg : g.WellFormed) {a b : Nat} :
    Leads (g.nextComponents parts) a b ↔
      a ≠ b ∧ ∃ u v, g.Edge u v ∧ numberOf parts u = a ∧ numberOf parts v = b := by
  rw [Leads, nextComponents, List.mem_filter]
  constructor
  · rintro ⟨-, hb⟩
    rw [Bool.and_eq_true, bne_iff_ne, List.contains_iff_mem] at hb
    obtain ⟨hne, hb⟩ := hb
    obtain ⟨v, hv, rfl⟩ := List.mem_map.mp hb
    obtain ⟨u, hu, huv⟩ := List.mem_flatMap.mp hv
    refine ⟨hne.symm, u, v, mem_successors_iff.mp huv, ?_, rfl⟩
    cases hc : parts[a]? with
    | none => simp [hc] at hu
    | some c => exact h.numberOf_eq hc (by simpa [hc] using hu)
  · rintro ⟨hne, u, v, huv, rfl, rfl⟩
    obtain ⟨c, hc, huc⟩ := h.getElem?_numberOf (hg.left u v huv)
    refine ⟨List.mem_range.mpr (h.numberOf_lt (hg.right u v huv)), ?_⟩
    rw [Bool.and_eq_true, bne_iff_ne, List.contains_iff_mem, hc]
    exact ⟨hne.symm, List.mem_map_of_mem
      (List.mem_flatMap.mpr ⟨u, huc, mem_successors_iff.mpr huv⟩)⟩

/-- Steps between numbers are paths between the nodes of the components. -/
theorem path_of_leads (h : g.SplitBy parts) (hg : g.WellFormed) {u v : α} (hu : u ∈ g.nodes)
    (hv : v ∈ g.nodes)
    (hp : Relation.ReflTransGen (Leads (g.nextComponents parts)) (numberOf parts u)
      (numberOf parts v)) : g.Path u v := by
  generalize hb : numberOf parts v = b at hp
  induction hp generalizing v with
  | refl => exact ((h.numberOf_eq_iff hu hv).mp hb.symm).1
  | tail _ hstep ih =>
    obtain ⟨-, x, y, hxy, hx, hy⟩ := (h.leads_nextComponents_iff hg).mp hstep
    have hxnode := hg.left x y hxy
    have hynode := hg.right x y hxy
    have hyv := ((h.numberOf_eq_iff hynode hv).mp (hy.trans hb.symm)).1
    exact ((ih hxnode hx).tail hxy).trans hyv

/-- Paths between nodes are steps between the numbers of their components. -/
theorem leads_of_path (h : g.SplitBy parts) (hg : g.WellFormed) {u v : α} (hp : g.Path u v) :
    Relation.ReflTransGen (Leads (g.nextComponents parts)) (numberOf parts u)
      (numberOf parts v) := by
  induction hp with
  | refl => exact Relation.ReflTransGen.refl
  | @tail x y _ hxy ih =>
    by_cases hsame : numberOf parts x = numberOf parts y
    · rw [← hsame]
      exact ih
    · exact ih.tail ((h.leads_nextComponents_iff hg).mpr ⟨hsame, x, y, hxy, rfl, rfl⟩)

/-- **There are no circles between components.** -/
theorem not_transGen_leads (h : g.SplitBy parts) (hg : g.WellFormed) (a : Nat) :
    ¬Relation.TransGen (Leads (g.nextComponents parts)) a a := by
  intro hcircle
  obtain ⟨b, hab, hba⟩ := Relation.TransGen.head'_iff.mp hcircle
  obtain ⟨hne, u, v, huv, rfl, rfl⟩ := (h.leads_nextComponents_iff hg).mp hab
  have hu := hg.left u v huv
  have hv := hg.right u v huv
  exact hne ((h.numberOf_eq_iff hu hv).mpr
    ⟨Relation.ReflTransGen.single huv, h.path_of_leads hg hv hu hba⟩)

/-- No step leaves the numbers of the components. -/
theorem lt_of_leads (h : g.SplitBy parts) (hg : g.WellFormed) {a b : Nat}
    (hab : Leads (g.nextComponents parts) a b) : b < parts.length := by
  obtain ⟨-, u, v, huv, -, rfl⟩ := (h.leads_nextComponents_iff hg).mp hab
  exact h.numberOf_lt (hg.right u v huv)

end SplitBy

/-! ### The order -/

section SuccessorsFirst

/-- **The part of a graph that some seeds lead to**, with its nodes in any order. Seeds that are
not in the graph do not count. -/
structure PartFrom (g : Digraph α) (seeds : List α) (part : Digraph α) : Prop where
  wellFormed : part.WellFormed
  mem_nodes : ∀ v, v ∈ part.nodes ↔ ∃ s ∈ seeds, s ∈ g.nodes ∧ g.Path s v
  edge : ∀ u v, part.Edge u v ↔ u ∈ part.nodes ∧ g.Edge u v

/-- **An order of what some seeds lead to**: it lists each of these nodes once, a node stands
behind what its edges lead to, but for what leads back to it, and the nodes that lead to each
other stand together. -/
structure OrderedFrom (g : Digraph α) (seeds order : List α) : Prop where
  mem_iff : ∀ v, v ∈ order ↔ ∃ s ∈ seeds, s ∈ g.nodes ∧ g.Path s v
  nodup : order.Nodup
  behind : ∀ u v, u ∈ order → g.Edge u v → ¬g.Path v u → [v, u].Sublist order
  together : ∀ u ∈ order, ∃ c, c <:+: order ∧ ∀ v, v ∈ c ↔ g.Path u v ∧ g.Path v u

/-- The walk over numbered components as it begins: the components of the seeds are put in. -/
def walkFromSeeds (g : Digraph α) (seeds : List α) (parts : List (List α)) : Layering :=
  (((distinct seeds).filter (· ∈ g.nodes)).map (numberOf parts)).foldl Layering.start ⟨[], [], []⟩

/-- **What a walk over numbered components comes to**, when it has ended by itself: read
backwards, the last mention of each component counts. -/
def ComesTo (g : Digraph α) (seeds : List α) (part : Digraph α) (parts : List (List α))
    (order : List α) : Prop :=
  ∃ last, Layering.Ends (part.nextComponents parts) (g.walkFromSeeds seeds parts) last ∧
    order = (distinct last.visits.reverse).flatMap fun n => (parts[n]?).getD []

/-- There is only one order that a walk comes to. -/
theorem ComesTo.unique {seeds : List α} {part : Digraph α} {parts : List (List α)}
    {order order' : List α} (h : g.ComesTo seeds part parts order)
    (h' : g.ComesTo seeds part parts order') : order = order' := by
  obtain ⟨last, hends, rfl⟩ := h
  obtain ⟨last', hends', rfl⟩ := h'
  rw [hends.unique hends']

/-- The part of a graph that its seeds lead to, with the nodes in the order of the graph. -/
def reached (g : Digraph α) (seeds : List α) : Digraph α :=
  g.restrict (· ∈ g.explore ((distinct seeds).filter (· ∈ g.nodes)))

variable {seeds : List α} {part : Digraph α} {parts : List (List α)}

theorem mem_seeds_iff {s : α} :
    s ∈ (distinct seeds).filter (· ∈ g.nodes) ↔ s ∈ seeds ∧ s ∈ g.nodes := by
  rw [List.mem_filter, mem_distinct, decide_eq_true_iff]

theorem partFrom_reached (hg : g.WellFormed) (seeds : List α) :
    g.PartFrom seeds (g.reached seeds) := by
  have hexplore : ∀ v, v ∈ g.explore ((distinct seeds).filter (· ∈ g.nodes)) ↔
      ∃ s ∈ seeds, s ∈ g.nodes ∧ g.Path s v := by
    intro v
    simp only [mem_explore_iff, mem_seeds_iff, and_assoc]
  refine ⟨hg.restrict _, fun v => ?_, fun u v => ?_⟩
  · refine List.mem_filter.trans ⟨fun h => (hexplore v).mp (of_decide_eq_true h.2), fun h => ?_⟩
    have hv := decide_eq_true ((hexplore v).mpr h)
    obtain ⟨s, -, hs, hp⟩ := h
    exact ⟨hg.mem_of_path hs hp, hv⟩
  · rw [reached, edge_restrict_iff, decide_eq_true_iff, decide_eq_true_iff]
    constructor
    · rintro ⟨he, hu, -⟩
      exact ⟨List.mem_filter.mpr ⟨hg.left u v he, decide_eq_true hu⟩, he⟩
    · rintro ⟨hu, he⟩
      have hu := of_decide_eq_true (List.mem_filter.mp hu).2
      obtain ⟨s, hs, hs', hp⟩ := (hexplore u).mp hu
      exact ⟨he, hu, (hexplore v).mpr ⟨s, hs, hs', hp.tail he⟩⟩

namespace PartFrom

omit [DecidableEq α] in
/-- **No path leaves the part.** -/
theorem path_iff (h : g.PartFrom seeds part) {u v : α} (hu : u ∈ part.nodes) :
    part.Path u v ↔ g.Path u v := by
  constructor
  · intro hp
    exact hp.lift id fun x y he => ((h.edge x y).mp he).2
  · intro hp
    have hboth : part.Path u v ∧ v ∈ part.nodes := by
      induction hp with
      | refl => exact ⟨Relation.ReflTransGen.refl, hu⟩
      | @tail x y _ he ih =>
        have he := (h.edge x y).mpr ⟨ih.2, he⟩
        exact ⟨ih.1.tail he, h.wellFormed.right x y he⟩
    exact hboth.1

omit [DecidableEq α] in
theorem mem_of_path (h : g.PartFrom seeds part) {u v : α} (hu : u ∈ part.nodes)
    (hp : g.Path u v) : v ∈ part.nodes :=
  h.wellFormed.mem_of_path hu ((h.path_iff hu).mpr hp)

theorem mem_component_iff (h : g.PartFrom seeds part) {u v : α} (hu : u ∈ part.nodes) :
    v ∈ part.component u ↔ g.Path u v ∧ g.Path v u := by
  rw [Digraph.mem_component_iff]
  constructor
  · rintro ⟨hv, huv, hvu⟩
    exact ⟨(h.path_iff hu).mp huv, (h.path_iff hv).mp hvu⟩
  · rintro ⟨huv, hvu⟩
    have hv := h.mem_of_path hu huv
    exact ⟨hv, (h.path_iff hu).mpr huv, (h.path_iff hv).mpr hvu⟩

/-- The seeds that are nodes are nodes of the part. -/
theorem mem_of_seed (h : g.PartFrom seeds part) {s : α}
    (hs : s ∈ (distinct seeds).filter (· ∈ g.nodes)) : s ∈ part.nodes := by
  obtain ⟨hs, hnode⟩ := mem_seeds_iff.mp hs
  exact (h.mem_nodes s).mpr ⟨s, hs, hnode, Relation.ReflTransGen.refl⟩

end PartFrom

/-- The numbers of the components, in the order in which they are listed. -/
def numbersFrom (g : Digraph α) (seeds : List α) (part : Digraph α) (parts : List (List α)) :
    List Nat :=
  layered (part.nextComponents parts) parts.length
    (((distinct seeds).filter (· ∈ g.nodes)).map (numberOf parts))

variable (hpart : g.PartFrom seeds part) (hsplit : part.SplitBy parts)
include hpart hsplit

theorem lt_of_mem_starts :
    ∀ n ∈ ((distinct seeds).filter (· ∈ g.nodes)).map (numberOf parts), n < parts.length := by
  intro n hn
  obtain ⟨s, hs, rfl⟩ := List.mem_map.mp hn
  exact hsplit.numberOf_lt (hpart.mem_of_seed hs)

/-- **A walk over numbered components ends by itself**, whatever their numbers. -/
theorem comesTo_numbersFrom : g.ComesTo seeds part parts
    ((g.numbersFrom seeds part parts).flatMap fun n => (parts[n]?).getD []) := by
  obtain ⟨last, hends, hlayered⟩ := ends_layered (lt_of_mem_starts hpart hsplit)
    (fun _ _ _ hab => hsplit.lt_of_leads hpart.wellFormed hab)
    (hsplit.not_transGen_leads hpart.wellFormed)
  exact ⟨last, hends, by rw [numbersFrom, hlayered]⟩

/-- The numbers that are listed are those of the nodes of the part. -/
theorem mem_numbersFrom_iff {n : Nat} :
    n ∈ g.numbersFrom seeds part parts ↔ ∃ v ∈ part.nodes, numberOf parts v = n := by
  rw [numbersFrom, mem_layered_iff (lt_of_mem_starts hpart hsplit)
    (fun _ _ _ hab => hsplit.lt_of_leads hpart.wellFormed hab)
    (hsplit.not_transGen_leads hpart.wellFormed)]
  constructor
  · rintro ⟨a, ha, hp⟩
    obtain ⟨s, hs, rfl⟩ := List.mem_map.mp ha
    -- every number on the way is the number of a node
    induction hp with
    | refl => exact ⟨s, hpart.mem_of_seed hs, rfl⟩
    | tail _ hstep _ =>
      obtain ⟨-, u, v, huv, -, rfl⟩ := (hsplit.leads_nextComponents_iff hpart.wellFormed).mp hstep
      exact ⟨v, hpart.wellFormed.right u v huv, rfl⟩
  · rintro ⟨v, hv, rfl⟩
    obtain ⟨s, hs, hnode, hp⟩ := (hpart.mem_nodes v).mp hv
    have hs := mem_seeds_iff.mpr ⟨hs, hnode⟩
    exact ⟨_, List.mem_map_of_mem hs,
      hsplit.leads_of_path hpart.wellFormed ((hpart.path_iff (hpart.mem_of_seed hs)).mpr hp)⟩

/-- The component with the number of a node stands in the order. -/
theorem exists_infix_of_mem {v : α} (hv : v ∈ part.nodes) :
    ∃ c, parts[numberOf parts v]? = some c ∧ v ∈ c ∧
      c <:+: (g.numbersFrom seeds part parts).flatMap fun n => (parts[n]?).getD [] := by
  obtain ⟨c, hc, hvc⟩ := hsplit.getElem?_numberOf hv
  obtain ⟨front, back, hnumbers⟩ :=
    List.append_of_mem ((mem_numbersFrom_iff hpart hsplit).mpr ⟨v, hv, rfl⟩)
  refine ⟨c, hc, hvc, ?_⟩
  rw [hnumbers, List.flatMap_append, List.flatMap_cons, hc, Option.getD_some]
  exact List.infix_append' _ _ _

/-- **Components in the order of a walk**: whatever their numbers, this is an order of what the
seeds lead to. -/
theorem orderedFrom_numbersFrom : g.OrderedFrom seeds
    ((g.numbersFrom seeds part parts).flatMap fun n => (parts[n]?).getD []) where
  mem_iff v := by
    rw [← hpart.mem_nodes]
    constructor
    · intro hv
      obtain ⟨n, -, hv⟩ := List.mem_flatMap.mp hv
      cases hc : parts[n]? with
      | none => simp [hc] at hv
      | some c => exact hsplit.mem_nodes hc (by simpa [hc] using hv)
    · intro hv
      obtain ⟨c, -, hvc, hinfix⟩ := exists_infix_of_mem hpart hsplit hv
      exact hinfix.subset hvc
  nodup := by
    have hnumber : ∀ n v, v ∈ (parts[n]?).getD [] → numberOf parts v = n := by
      intro n v hv
      cases hc : parts[n]? with
      | none => simp [hc] at hv
      | some c => exact hsplit.numberOf_eq hc (by simpa [hc] using hv)
    refine List.nodup_flatMap.mpr ⟨fun n _ => ?_, nodup_layered.imp fun {a b} hab => ?_⟩
    · cases hc : parts[n]? with
      | none => simp
      | some c =>
        obtain ⟨v, -, rfl⟩ := hsplit.component c (List.mem_of_getElem? hc)
        exact hpart.wellFormed.nodup.filter _
    · intro v ha hb
      exact hab ((hnumber a v ha).symm.trans (hnumber b v hb))
  behind u v hu huv hback := by
    obtain ⟨n, hn, hu⟩ := List.mem_flatMap.mp hu
    cases hc : parts[n]? with
    | none => simp [hc] at hu
    | some c =>
      have huc : u ∈ c := by simpa [hc] using hu
      have hnode := hsplit.mem_nodes hc huc
      have hnumber := hsplit.numberOf_eq hc huc
      have huv := (hpart.edge u v).mpr ⟨hnode, huv⟩
      have hv := hpart.wellFormed.right u v huv
      obtain ⟨c', hc', hvc'⟩ := hsplit.getElem?_numberOf hv
      have hne : n ≠ numberOf parts v := fun he => hback ((hpart.path_iff hv).mp
        ((hsplit.numberOf_eq_iff hnode hv).mp (hnumber.trans he)).2)
      have hleads := (hsplit.leads_nextComponents_iff hpart.wellFormed).mpr
        ⟨hne, u, v, huv, hnumber, rfl⟩
      -- the number of `v` stands in front of that of `u`, and so do their components
      have hsub := sublist_layered (lt_of_mem_starts hpart hsplit)
        (fun _ _ _ hab => hsplit.lt_of_leads hpart.wellFormed hab)
        (hsplit.not_transGen_leads hpart.wellFormed) hn hleads
      refine List.Sublist.trans ?_ (hsub.flatMap fun n => (parts[n]?).getD [])
      rw [List.flatMap_cons, List.flatMap_singleton, hc, hc']
      exact (List.singleton_sublist.mpr hvc').append (List.singleton_sublist.mpr huc)
  together u hu := by
    obtain ⟨n, -, hu⟩ := List.mem_flatMap.mp hu
    cases hc : parts[n]? with
    | none => simp [hc] at hu
    | some c =>
      have hnode := hsplit.mem_nodes hc (by simpa [hc] using hu)
      obtain ⟨c', hc', huc', hinfix⟩ := exists_infix_of_mem hpart hsplit hnode
      exact ⟨c', hinfix, fun v =>
        (hsplit.eq_component hc' huc').trans (hpart.mem_component_iff hnode)⟩

omit hpart hsplit

theorem successorsFirst_eq (g : Digraph α) (seeds : List α) : g.successorsFirst seeds =
    (g.numbersFrom seeds (g.reached seeds) (g.reached seeds).components).flatMap
      fun n => ((g.reached seeds).components[n]?).getD [] := rfl

/-- **The order of successors** is an order of what the seeds lead to. -/
theorem orderedFrom_successorsFirst (hg : g.WellFormed) (seeds : List α) :
    g.OrderedFrom seeds (g.successorsFirst seeds) := by
  have hpart := partFrom_reached hg seeds
  rw [successorsFirst_eq]
  exact orderedFrom_numbersFrom hpart (splitBy_components hpart.wellFormed)

/-- **The order lists exactly what can be reached** from the seeds that are nodes. -/
theorem mem_successorsFirst_iff (hg : g.WellFormed) {seeds : List α} {v : α} :
    v ∈ g.successorsFirst seeds ↔ ∃ s ∈ seeds, s ∈ g.nodes ∧ g.Path s v :=
  (orderedFrom_successorsFirst hg seeds).mem_iff v

/-- The order lists each node once. -/
theorem nodup_successorsFirst (hg : g.WellFormed) (seeds : List α) :
    (g.successorsFirst seeds).Nodup := (orderedFrom_successorsFirst hg seeds).nodup

/-- **A node stands after what its edges lead to**, but for what leads back to it. -/
theorem sublist_successorsFirst (hg : g.WellFormed) {seeds : List α} {u v : α}
    (hu : u ∈ g.successorsFirst seeds) (huv : g.Edge u v) (hback : ¬g.Path v u) :
    [v, u].Sublist (g.successorsFirst seeds) :=
  (orderedFrom_successorsFirst hg seeds).behind u v hu huv hback

/-- **Successors come first, whatever the numbers of the components.** The walk over the
components of the part that the seeds lead to ends by itself, whatever the order of these
components and of the nodes in them, and what it comes to is an order of that part. The order of
successors is what it comes to for the components as they are found. -/
theorem orderedFrom_of_splitBy (hg : g.WellFormed) (seeds : List α) :
    (g.OrderedFrom seeds (g.successorsFirst seeds) ∧
      g.ComesTo seeds (g.reached seeds) (g.reached seeds).components (g.successorsFirst seeds)) ∧
    ∀ part parts, g.PartFrom seeds part → part.SplitBy parts →
      (∃ order, g.ComesTo seeds part parts order) ∧
        ∀ order, g.ComesTo seeds part parts order → g.OrderedFrom seeds order := by
  have hpart := partFrom_reached hg seeds
  refine ⟨⟨orderedFrom_successorsFirst hg seeds, ?_⟩, fun part parts hpart hsplit => ?_⟩
  · rw [successorsFirst_eq]
    exact comesTo_numbersFrom hpart (splitBy_components hpart.wellFormed)
  · have hcomes := comesTo_numbersFrom hpart hsplit
    refine ⟨⟨_, hcomes⟩, fun order horder => ?_⟩
    rw [horder.unique hcomes]
    exact orderedFrom_numbersFrom hpart hsplit

/-- A graph with a circle, an edge from a node to itself, and paths of different lengths from
node 0 to node 4. -/
def braid : Digraph Nat where
  nodes := [0, 1, 2, 3, 4, 5]
  edges := [(0, 1), (1, 2), (2, 1), (0, 3), (3, 3), (2, 4), (3, 4), (5, 0), (0, 4)]

/-- Of two seeds one leads to the other, and a third one is not in the graph. The walk also comes
to an order if the components are numbered the other way round. -/
theorem orderedFrom_of_splitBy_braid :
    braid.WellFormed ∧
      (braid.OrderedFrom [4, 0, 4, 9] (braid.successorsFirst [4, 0, 4, 9]) ∧
        braid.successorsFirst [4, 0, 4, 9] = [4, 3, 1, 2, 0]) ∧
      ∃ order, braid.ComesTo [4, 0, 4, 9] (braid.reached [4, 0, 4, 9])
          (braid.reached [4, 0, 4, 9]).components.reverse order ∧
        braid.OrderedFrom [4, 0, 4, 9] order := by
  have hbraid : braid.WellFormed := by decide
  have hpart := partFrom_reached hbraid [4, 0, 4, 9]
  obtain ⟨⟨hordered, -⟩, hall⟩ := orderedFrom_of_splitBy hbraid [4, 0, 4, 9]
  obtain ⟨⟨order, hcomes⟩, horder⟩ := hall _ _ hpart
    ((splitBy_components hpart.wellFormed).perm (List.reverse_perm _))
  exact ⟨hbraid, ⟨hordered, by decide⟩, order, hcomes, horder order hcomes⟩

end SuccessorsFirst

/-! ### What is inherited -/

section Inherited

variable {uses extends_ : Digraph α}

theorem edge_foldl_addEdge_iff {edges : List (α × α)} {u v : α} :
    (edges.foldl (fun g e => g.addEdge e.1 e.2) g).Edge u v ↔ g.Edge u v ∨ (u, v) ∈ edges := by
  induction edges generalizing g with
  | nil => simp
  | cons e edges ih =>
    rw [List.foldl_cons, ih, edge_addEdge_iff, or_assoc, List.mem_cons, Prod.ext_iff]

theorem mem_nodes_foldl_addEdge {edges : List (α × α)} {u : α} (hu : u ∈ g.nodes) :
    u ∈ (edges.foldl (fun g e => g.addEdge e.1 e.2) g).nodes := by
  induction edges generalizing g with
  | nil => exact hu
  | cons e edges ih => exact ih (mem_nodes_addEdge.mpr (Or.inl hu))

theorem WellFormed.foldl_addEdge (hg : g.WellFormed) (edges : List (α × α)) :
    (edges.foldl (fun g e => g.addEdge e.1 e.2) g).WellFormed := by
  induction edges generalizing g with
  | nil => exact hg
  | cons e edges ih => exact ih (hg.addEdge e.1 e.2)

/-- The uses that are inherited, as edges. -/
def inherited (uses extends_ : Digraph α) : List (α × α) :=
  (extends_.nodes.filter (· ∈ uses.nodes)).flatMap fun derived =>
    (extends_.descendants derived).flatMap fun base =>
      ((uses.successors base).filter (· ≠ derived)).map (derived, ·)

theorem withInherited_eq : withInherited uses extends_ =
    (inherited uses extends_).foldl (fun g e => g.addEdge e.1 e.2) uses := by
  simp only [withInherited, inherited, List.foldl_flatMap, List.foldl_map]

/-- **A node uses what it used, and what is used by all that it extends.** -/
theorem edge_withInherited_iff {u v : α} :
    (withInherited uses extends_).Edge u v ↔ uses.Edge u v ∨
      (u ∈ extends_.nodes ∧ u ∈ uses.nodes ∧
        ∃ b, extends_.Path u b ∧ b ≠ u ∧ uses.Edge b v ∧ v ≠ u) := by
  rw [withInherited_eq, edge_foldl_addEdge_iff]
  refine or_congr_right ?_
  simp only [inherited, List.mem_flatMap, List.mem_filter, List.mem_map, mem_descendants_iff,
    mem_successors_iff, decide_eq_true_eq, Prod.ext_iff]
  constructor
  · rintro ⟨derived, ⟨hext, huse⟩, base, ⟨hp, hne⟩, used, ⟨he, hne'⟩, rfl, rfl⟩
    exact ⟨hext, huse, base, hp, hne, he, hne'⟩
  · rintro ⟨hext, huse, base, hp, hne, he, hne'⟩
    exact ⟨u, ⟨hext, huse⟩, base, ⟨hp, hne⟩, v, ⟨he, hne'⟩, rfl, rfl⟩

theorem mem_nodes_withInherited {u : α} (hu : u ∈ uses.nodes) :
    u ∈ (withInherited uses extends_).nodes := by
  rw [withInherited_eq]
  exact mem_nodes_foldl_addEdge hu

theorem WellFormed.withInherited (h : uses.WellFormed) :
    (withInherited uses extends_).WellFormed := by
  rw [withInherited_eq]
  exact h.foldl_addEdge _

end Inherited

end TypeGraft.Digraph
