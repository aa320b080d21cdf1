import Mathlib.Data.List.Lex
import Mathlib.Data.List.Sort
import TypeGraft.Proofs.Digraph.Components

/-!
# The circles of a graph

`TypeGraft.Digraph.circles` lists the components in which a path leads back to its start, and
`TypeGraft.Digraph.cut` takes away the edges inside of them.

* `TypeGraft.Digraph.edge_cut_circles_iff`: an edge is left exactly if no path leads back over it.
* `TypeGraft.Digraph.listsCircles_circles`: the list holds each such component once, sorted, and
  the larger ones come first.
* `TypeGraft.Digraph.uncircled_and_circles`: both together, and that cutting a second time does
  nothing.

**Components and paths.** An edge over which a path leads back has its two ends in one component,
which then has more than one node or an edge from its node to itself; and two nodes of one
component lead to each other. So the edges to take away can be told from the components that were
found before any edge was taken away, and no circle is left over that would run through several
components.

The nodes are ordered by a test `le`, of which it is assumed that it is a linear order
(`TypeGraft.Digraph.Linear`).
-/

namespace TypeGraft.Digraph

variable {α : Type} {g : Digraph α} {le : α → α → Bool}

/-! ### Sorted lists -/

/-- **A linear order** that a test decides. -/
structure Linear (le : α → α → Bool) : Prop where
  total : ∀ a b, le a b = true ∨ le b a = true
  trans : ∀ a b c, le a b = true → le b c = true → le a c = true
  antisymm : ∀ a b, le a b = true → le b a = true → a = b

/-- One node comes before another. -/
def Below (le : α → α → Bool) (a b : α) : Prop := le a b = true ∧ a ≠ b

/-- **The order of the circles**: larger ones come first, and of two with as many nodes the one that
is less at the first difference. -/
def Ahead (le : α → α → Bool) (a b : List α) : Prop :=
  b.length < a.length ∨ (a.length = b.length ∧ List.Lex (Below le) a b)

theorem Linear.below_trans (h : Linear le) {a b c : α} (hab : Below le a b) (hbc : Below le b c) :
    Below le a c := by
  refine ⟨h.trans a b c hab.1 hbc.1, ?_⟩
  rintro rfl
  exact hab.2 (h.antisymm a b hab.1 hbc.1)

/-- Sorted lists without repetitions that have the same members are the same. -/
theorem Linear.eq_of_mem_iff (h : Linear le) {a b : List α} (ha : a.Pairwise (Below le))
    (hb : b.Pairwise (Below le)) (hmem : ∀ v, v ∈ a ↔ v ∈ b) : a = b := by
  have hperm : a.Perm b :=
    (List.perm_ext_iff_of_nodup (ha.imp fun h => h.2) (hb.imp fun h => h.2)).mpr hmem
  exact List.Perm.eq_of_pairwise (fun x y _ _ => h.antisymm x y) (ha.imp fun h => h.1)
    (hb.imp fun h => h.1) hperm

theorem Linear.pairwise_below (h : Linear le) {vs : List α} (hvs : vs.Nodup) :
    (vs.mergeSort le).Pairwise (Below le) := by
  have hsorted := List.pairwise_mergeSort h.trans
    (fun a b => Bool.or_eq_true_iff.mpr (h.total a b)) vs
  exact hsorted.and ((List.mergeSort_perm vs le).nodup_iff.mpr hvs)

variable [DecidableEq α]

theorem listLe_iff {a b : List α} : listLe le a b = true ↔ a = b ∨ List.Lex (Below le) a b := by
  induction a generalizing b with
  | nil =>
    cases b with
    | nil => simp [listLe]
    | cons y b => simp [listLe]
  | cons x a ih =>
    cases b with
    | nil => simp [listLe]
    | cons y b =>
      rw [listLe]
      by_cases hxy : x = y
      · subst hxy
        rw [if_pos rfl, ih, List.cons.injEq]
        refine or_congr (by simp) ⟨List.Lex.cons, fun h => ?_⟩
        cases h with
        | rel h => exact absurd rfl h.2
        | cons h => exact h
      · rw [if_neg hxy]
        constructor
        · exact fun h => Or.inr (List.Lex.rel ⟨h, hxy⟩)
        · rintro (h | h)
          · exact absurd (List.cons.inj h).1 hxy
          · cases h with
            | rel h => exact h.1
            | cons h => exact absurd rfl hxy

theorem Linear.listLe_total (h : Linear le) (a b : List α) :
    listLe le a b = true ∨ listLe le b a = true := by
  induction a generalizing b with
  | nil => exact Or.inl rfl
  | cons x a ih =>
    cases b with
    | nil => exact Or.inr rfl
    | cons y b =>
      rw [listLe, listLe]
      by_cases hxy : x = y
      · rw [if_pos hxy, if_pos hxy.symm]
        exact ih b
      · rw [if_neg hxy, if_neg fun hyx => hxy hyx.symm]
        exact h.total x y

theorem Linear.listLe_trans (h : Linear le) {a b c : List α} (hab : listLe le a b = true)
    (hbc : listLe le b c = true) : listLe le a c = true := by
  rw [listLe_iff] at *
  rcases hab with rfl | hab
  · exact hbc
  · rcases hbc with rfl | hbc
    · exact Or.inr hab
    · exact Or.inr (List.lex_trans h.below_trans hab hbc)

/-! ### Which components are circles -/

/-- A path leads back to its start in a set of nodes that lead to each other. -/
def Round (g : Digraph α) (c : List α) : Prop := 1 < c.length ∨ ∃ v ∈ c, g.Edge v v

theorem nodup_of_mem_components (hg : g.WellFormed) {c : List α} (hc : c ∈ g.components) :
    c.Nodup := by
  obtain ⟨u, -, rfl⟩ := (splitBy_components hg).component c hc
  exact hg.nodup.filter _

theorem ne_nil_of_mem_components (hg : g.WellFormed) {c : List α} (hc : c ∈ g.components) :
    c ≠ [] := by
  obtain ⟨u, hu, rfl⟩ := (splitBy_components hg).component c hc
  exact List.ne_nil_of_mem (mem_component_self hu)

/-- The components that are circles, as they are found. -/
def roundComponents (g : Digraph α) : List (List α) :=
  g.components.filter fun c => 1 ≤ c.length && (1 < c.length || c.any fun v => g.hasEdge v v)

theorem circles_perm (le : α → α → Bool) (g : Digraph α) :
    (g.circles le 1).Perm (g.roundComponents.map (·.mergeSort le)) := List.mergeSort_perm _ _

theorem mem_roundComponents_iff (hg : g.WellFormed) {c : List α} :
    c ∈ g.roundComponents ↔ c ∈ g.components ∧ g.Round c := by
  rw [roundComponents, List.mem_filter, Bool.and_eq_true, Bool.or_eq_true, decide_eq_true_iff,
    decide_eq_true_iff, List.any_eq_true]
  refine and_congr_right fun hc => ?_
  have hpos := List.length_pos_iff.mpr (ne_nil_of_mem_components hg hc)
  have hloop : (∃ v ∈ c, g.hasEdge v v = true) ↔ ∃ v ∈ c, g.Edge v v := by
    simp only [hasEdge, decide_eq_true_iff, Edge]
  rw [hloop]
  exact and_iff_right hpos

theorem mem_circles_iff (hg : g.WellFormed) {c : List α} :
    c ∈ g.circles le 1 ↔ ∃ c₀ ∈ g.components, g.Round c₀ ∧ c = c₀.mergeSort le := by
  rw [(circles_perm le g).mem_iff, List.mem_map]
  simp only [mem_roundComponents_iff hg, and_assoc, eq_comm]

/-- **An edge over which a path leads back** lies in a circle. -/
theorem exists_circle (hg : g.WellFormed) (le : α → α → Bool) {u v : α} (huv : g.Edge u v)
    (hback : g.Path v u) : ∃ c ∈ g.circles le 1, u ∈ c ∧ v ∈ c := by
  have hu := hg.left u v huv
  obtain ⟨c, hc, huc⟩ := (splitBy_components hg).cover u hu
  obtain ⟨w, -, rfl⟩ := (splitBy_components hg).component c hc
  have hvc : v ∈ g.component w := mem_component_of_mem (mem_component_self hu) huc
    (mem_component_iff.mpr ⟨hg.right u v huv, Relation.ReflTransGen.single huv, hback⟩)
  have hround : g.Round (g.component w) := by
    by_cases hsame : u = v
    · subst hsame
      exact Or.inr ⟨u, huc, huv⟩
    · refine Or.inl (Nat.lt_of_not_le fun hshort => ?_)
      obtain ⟨x, hx⟩ := List.length_eq_one_iff.mp
        (Nat.le_antisymm hshort (List.length_pos_of_mem huc))
      rw [hx, List.mem_singleton] at huc hvc
      exact hsame (huc.trans hvc.symm)
  exact ⟨_, (mem_circles_iff hg).mpr ⟨_, hc, hround, rfl⟩, List.mem_mergeSort.mpr huc,
    List.mem_mergeSort.mpr hvc⟩

/-- Nodes of one circle lead to each other. -/
theorem path_of_mem_circle (hg : g.WellFormed) {c : List α} (hc : c ∈ g.circles le 1) {u v : α}
    (hu : u ∈ c) (hv : v ∈ c) : g.Path u v := by
  obtain ⟨c₀, hc₀, -, rfl⟩ := (mem_circles_iff hg).mp hc
  obtain ⟨w, -, rfl⟩ := (splitBy_components hg).component c₀ hc₀
  have hu := (mem_component_iff.mp (List.mem_mergeSort.mp hu)).2.2
  have hv := (mem_component_iff.mp (List.mem_mergeSort.mp hv)).2.1
  exact hu.trans hv

/-- **Cutting the circles takes away the edges over which a path leads back**, and no others. -/
theorem edge_cut_circles_iff (hg : g.WellFormed) {u v : α} :
    (g.cut (g.circles le 1)).Edge u v ↔ g.Edge u v ∧ ¬g.Path v u := by
  rw [edge_cut_iff]
  refine and_congr_right fun huv => ⟨fun h hback => ?_, fun h c hc hu hv => ?_⟩
  · obtain ⟨c, hc, hu, hv⟩ := exists_circle hg le huv hback
    exact h c hc hu hv
  · exact h (path_of_mem_circle hg hc hv hu)

/-- **When the circles are cut**, no path leads back to where it began. -/
theorem not_transGen_cut (hg : g.WellFormed) (le : α → α → Bool) (v : α) :
    ¬Relation.TransGen (g.cut (g.circles le 1)).Edge v v := by
  intro hcircle
  obtain ⟨u, hvu, huv⟩ := Relation.TransGen.head'_iff.mp hcircle
  have hcut : (g.cut (g.circles le 1)).Edge ≤ g.Edge := fun _ _ he => (edge_cut_iff.mp he).1
  exact ((edge_cut_circles_iff hg).mp hvu).2 (Relation.ReflTransGen.mono hcut u v huv)

/-! ### The list of the circles -/

/-- **A list of all circles**: the components in which a path leads back to its start, each sorted
and listed once, the larger ones first. -/
structure ListsCircles (g : Digraph α) (le : α → α → Bool) (circles : List (List α)) : Prop where
  mem_iff : ∀ c, c ∈ circles ↔ c.Pairwise (Below le) ∧ g.Round c ∧
    ∃ u ∈ g.nodes, ∀ v, v ∈ c ↔ g.Path u v ∧ g.Path v u
  ordered : circles.Pairwise (Ahead le)

theorem nodup_circles (hg : g.WellFormed) : (g.circles le 1).Nodup := by
  refine (circles_perm le g).nodup_iff.mpr (List.pairwise_map.mpr ?_)
  have hsplit := splitBy_components hg
  refine (hsplit.apart.filter _).imp_of_mem fun {c c'} hc _ hapart heq => ?_
  obtain ⟨v, hv⟩ := List.exists_mem_of_ne_nil c
    (ne_nil_of_mem_components hg (List.mem_filter.mp hc).1)
  have hv' : v ∈ c'.mergeSort le := heq ▸ List.mem_mergeSort.mpr hv
  exact hapart v hv (List.mem_mergeSort.mp hv')

theorem ordered_circles (hg : g.WellFormed) (hle : Linear le) :
    (g.circles le 1).Pairwise (Ahead le) := by
  have hsorted : (g.circles le 1).Pairwise fun a b =>
      (decide (b.length < a.length) || (a.length == b.length && listLe le a b)) = true := by
    refine List.pairwise_mergeSort (fun a b c hab hbc => ?_) (fun a b => ?_) _
    · rw [Bool.or_eq_true, decide_eq_true_iff, Bool.and_eq_true, beq_iff_eq] at *
      rcases hab with hab | ⟨hab, hab'⟩ <;> rcases hbc with hbc | ⟨hbc, hbc'⟩
      · exact Or.inl (hbc.trans hab)
      · exact Or.inl (hbc ▸ hab)
      · exact Or.inl (hab ▸ hbc)
      · exact Or.inr ⟨hab.trans hbc, hle.listLe_trans hab' hbc'⟩
    · rw [Bool.or_eq_true, Bool.or_eq_true, Bool.or_eq_true, decide_eq_true_iff,
        decide_eq_true_iff, Bool.and_eq_true, Bool.and_eq_true, beq_iff_eq, beq_iff_eq]
      rcases Nat.lt_trichotomy a.length b.length with hlt | heq | hgt
      · exact Or.inr (Or.inl hlt)
      · exact (hle.listLe_total a b).imp (fun h => Or.inr ⟨heq, h⟩) fun h => Or.inr ⟨heq.symm, h⟩
      · exact Or.inl (Or.inl hgt)
  refine (hsorted.and (nodup_circles hg)).imp fun {a b} ⟨hab, hne⟩ => ?_
  rw [Bool.or_eq_true, decide_eq_true_iff, Bool.and_eq_true, beq_iff_eq] at hab
  exact hab.imp_right fun ⟨hlength, hab⟩ => ⟨hlength, (listLe_iff.mp hab).resolve_left hne⟩

/-- **All circles are listed**, and nothing else. -/
theorem listsCircles_circles (hg : g.WellFormed) (hle : Linear le) :
    g.ListsCircles le (g.circles le 1) where
  mem_iff c := by
    have hsplit := splitBy_components hg
    have hround : ∀ c₀, g.Round (c₀.mergeSort le) ↔ g.Round c₀ := by
      intro c₀
      rw [Round, Round, List.length_mergeSort]
      simp only [List.mem_mergeSort]
    rw [mem_circles_iff hg]
    constructor
    · rintro ⟨c₀, hc₀, hc₀round, rfl⟩
      obtain ⟨u, hu, hcomponent⟩ := hsplit.component c₀ hc₀
      refine ⟨hle.pairwise_below (nodup_of_mem_components hg hc₀), (hround c₀).mpr hc₀round, u, hu,
        fun v => ?_⟩
      rw [List.mem_mergeSort, hcomponent, mem_component_iff]
      exact and_iff_right_of_imp fun h => hg.mem_of_path hu h.1
    · rintro ⟨hsorted, hcround, u, hu, hmem⟩
      -- the component that holds `u` has the members of `c`
      obtain ⟨c₀, hc₀, huc₀⟩ := hsplit.cover u hu
      obtain ⟨w, -, rfl⟩ := hsplit.component c₀ hc₀
      have hsame : c = (g.component w).mergeSort le := by
        refine hle.eq_of_mem_iff hsorted
          (hle.pairwise_below (nodup_of_mem_components hg hc₀)) fun v => ?_
        rw [hmem, List.mem_mergeSort]
        constructor
        · intro h
          exact mem_component_of_mem (mem_component_self hu) huc₀
            (mem_component_iff.mpr ⟨hg.mem_of_path hu h.1, h⟩)
        · intro h
          exact (mem_component_iff.mp
            (mem_component_of_mem huc₀ (mem_component_self hu) h)).2
      rw [hsame, hround] at hcround
      exact ⟨_, hc₀, hcround, hsame⟩
  ordered := ordered_circles hg hle

/-- A graph in which no path leads back to its start has no circles. -/
theorem circles_eq_nil (hg : g.WellFormed) (hacyclic : ∀ v, ¬Relation.TransGen g.Edge v v) :
    g.circles le 1 = [] := by
  refine List.eq_nil_iff_forall_not_mem.mpr fun c hc => ?_
  obtain ⟨c₀, hc₀, hround, rfl⟩ := (mem_circles_iff hg).mp hc
  rcases hround with hlong | ⟨v, -, hv⟩
  · -- two different nodes of the component lead to each other
    have hnodup := nodup_of_mem_components hg hc₀
    obtain ⟨x, y, hx, hy, hne⟩ : ∃ x y, x ∈ c₀ ∧ y ∈ c₀ ∧ x ≠ y :=
      ⟨c₀[0], c₀[1], List.getElem_mem _, List.getElem_mem _, fun heq =>
        absurd (hnodup.getElem_inj_iff.mp heq) (by omega)⟩
    have hxy := path_of_mem_circle hg hc (List.mem_mergeSort.mpr hx) (List.mem_mergeSort.mpr hy)
    have hyx := path_of_mem_circle hg hc (List.mem_mergeSort.mpr hy) (List.mem_mergeSort.mpr hx)
    have hxy := (Relation.reflTransGen_iff_eq_or_transGen.mp hxy).resolve_left hne.symm
    exact hacyclic x (hxy.trans_left hyx)
  · exact hacyclic v (Relation.TransGen.single hv)

/-- **Circles may be cut one after the other.** -/
theorem cut_eq_foldl (sets : List (List α)) (g : Digraph α) :
    g.cut sets = sets.foldl (fun g c => g.cut [c]) g := by
  induction sets generalizing g with
  | nil => simp [cut]
  | cons c sets ih =>
    rw [List.foldl_cons, ← ih]
    simp [cut, List.filter_filter, Bool.and_comm]

/-- The graph without the edges inside of its circles. -/
def uncircled (le : α → α → Bool) (g : Digraph α) : Digraph α := g.cut (g.circles le 1)

/-- **Breaking the circles of a graph** keeps its nodes and all edges but those over which a path
leads back, and nothing leads back to its start any more. The circles that are broken are all
circles of the graph. They may be broken one after the other, and there are none left to break a
second time. -/
theorem uncircled_and_circles (hg : g.WellFormed) (hle : Linear le) :
    (g.uncircled le).nodes = g.nodes ∧
      (∀ u v, (g.uncircled le).Edge u v ↔ g.Edge u v ∧ ¬g.Path v u) ∧
      (∀ v, ¬Relation.TransGen (g.uncircled le).Edge v v) ∧
      g.ListsCircles le (g.circles le 1) ∧
      g.uncircled le = (g.circles le 1).foldl (fun g c => g.cut [c]) g ∧
      (g.uncircled le).circles le 1 = [] ∧ (g.uncircled le).uncircled le = g.uncircled le := by
  have hacyclic := not_transGen_cut hg le
  have hnone : (g.uncircled le).circles le 1 = [] := circles_eq_nil (hg.cut _) hacyclic
  refine ⟨rfl, fun u v => edge_cut_circles_iff hg, hacyclic, listsCircles_circles hg hle,
    cut_eq_foldl _ g, hnone, ?_⟩
  rw [uncircled, hnone, cut_eq_foldl]
  rfl

/-- A graph with two circles of two nodes, an edge from a node to itself, and edges between them. -/
def rings : Digraph Nat where
  nodes := [4, 3, 2, 1, 0, 5]
  edges := [(4, 3), (3, 1), (1, 3), (0, 2), (2, 0), (3, 0), (4, 4), (2, 5)]

/-- Circles of one size come in the order of their nodes. The edges that lead from one circle to
another are left. -/
theorem uncircled_and_circles_rings :
    rings.WellFormed ∧ Linear (fun a b : Nat => decide (a ≤ b)) ∧
      rings.ListsCircles (fun a b => decide (a ≤ b)) [[0, 2], [1, 3], [4]] ∧
      (rings.uncircled fun a b => decide (a ≤ b)).edges = [(4, 3), (3, 0), (2, 5)] ∧
      (rings.uncircled fun a b => decide (a ≤ b)).circles (fun a b => decide (a ≤ b)) 1 = [] := by
  have hrings : rings.WellFormed := by decide
  have hle : Linear fun a b : Nat => decide (a ≤ b) :=
    ⟨fun a b => by simpa using Nat.le_total a b,
      fun a b c hab hbc => by
        simpa using Nat.le_trans (of_decide_eq_true hab) (of_decide_eq_true hbc),
      fun a b hab hba => Nat.le_antisymm (of_decide_eq_true hab) (of_decide_eq_true hba)⟩
  have hround : rings.roundComponents = [[2, 0], [3, 1], [4]] := by decide
  have hcircles : rings.circles (fun a b => decide (a ≤ b)) 1 = [[0, 2], [1, 3], [4]] := by
    change (rings.roundComponents.map _).mergeSort _ = _
    rw [hround]
    simp [List.mergeSort, listLe]
  obtain ⟨-, -, -, hlists, -, hnone, -⟩ := uncircled_and_circles hrings hle
  rw [hcircles] at hlists
  exact ⟨hrings, hle, hlists, by rw [uncircled, hcircles]; decide, hnone⟩

end TypeGraft.Digraph
