import TypeGraft.Digraph.Order
import TypeGraft.Proofs.Digraph.Reach

/-!
# The components of a graph

`TypeGraft.Digraph.components` splits the nodes of a well-formed graph into the sets of those
that lead to each other. `TypeGraft.Digraph.SplitBy` says so of any list of components, and it
is all that the orders of the graph rely on: how the components are numbered is of no
importance to them.

* `TypeGraft.Digraph.splitBy_components`: the components are such a list.
* `TypeGraft.Digraph.SplitBy.numberOf_eq_iff`: two nodes have one number exactly if they lead
  to each other.

The depth-first walk behind the list has only to meet all nodes here. That it lists them in
the order in which it is done with them is not used, so neither is that it goes deep enough.
-/

namespace TypeGraft.Digraph

variable {α : Type} {g : Digraph α}

/-! ### What the depth-first walk meets -/

/-- **A walk goes on**: it forgets nothing, and it is done with all that it meets. -/
structure Walk.Grows (before after : Walk α) : Prop where
  met : ∀ v ∈ before.met, v ∈ after.met
  done : ∀ v ∈ before.done, v ∈ after.done
  new : ∀ v ∈ after.met, v ∈ before.met ∨ v ∈ after.done

theorem Walk.Grows.refl (walk : Walk α) : walk.Grows walk :=
  ⟨fun _ h => h, fun _ h => h, fun _ h => Or.inl h⟩

theorem Walk.Grows.trans {a b c : Walk α} (h : a.Grows b) (h' : b.Grows c) : a.Grows c := by
  refine ⟨fun v hv => h'.met v (h.met v hv), fun v hv => h'.done v (h.done v hv), ?_⟩
  intro v hv
  rcases h'.new v hv with hb | hc
  · exact (h.new v hb).imp id (h'.done v)
  · exact Or.inr hc

theorem Walk.grows_foldl {step : Walk α → α → Walk α}
    (h : ∀ (walk : Walk α) v, walk.Grows (step walk v)) (vs : List α) (walk : Walk α) :
    walk.Grows (vs.foldl step walk) := by
  induction vs generalizing walk with
  | nil => exact Walk.Grows.refl walk
  | cons v vs ih => exact (h walk v).trans (ih (step walk v))

variable [DecidableEq α]

theorem grows_walkFrom (depth : Nat) (walk : Walk α) (v : α) :
    walk.Grows (g.walkFrom depth walk v) := by
  induction depth generalizing walk v with
  | zero => exact Walk.Grows.refl walk
  | succ depth ih =>
    rw [walkFrom]
    split
    · exact Walk.Grows.refl walk
    · have h := Walk.grows_foldl ih (g.successors v) { walk with met := v :: walk.met }
      refine ⟨fun w hw => h.met w (List.mem_cons_of_mem _ hw),
        fun w hw => List.mem_append_left _ (h.done w hw), ?_⟩
      intro w hw
      rcases h.new w hw with hm | hd
      · rcases List.mem_cons.mp hm with rfl | hm
        · exact Or.inr (List.mem_append_right _ (List.mem_singleton.mpr rfl))
        · exact Or.inl hm
      · exact Or.inr (List.mem_append_left _ hd)

/-- A walk from a node meets it. -/
theorem mem_met_walkFrom (depth : Nat) (walk : Walk α) (v : α) :
    v ∈ (g.walkFrom (depth + 1) walk v).met := by
  rw [walkFrom]
  split
  · next h => exact h
  · exact (Walk.grows_foldl (grows_walkFrom depth) (g.successors v)
      { walk with met := v :: walk.met }).met v List.mem_cons_self

theorem path_of_mem_done_walkFrom {depth : Nat} {walk : Walk α} {v w : α}
    (h : w ∈ (g.walkFrom depth walk v).done) : w ∈ walk.done ∨ g.Path v w := by
  induction depth generalizing walk v with
  | zero => exact Or.inl h
  | succ depth ih =>
    have hfold : ∀ (vs : List α) (walk : Walk α), w ∈ (vs.foldl (g.walkFrom depth) walk).done →
        w ∈ walk.done ∨ ∃ u ∈ vs, g.Path u w := by
      intro vs
      induction vs with
      | nil => exact fun walk hw => Or.inl hw
      | cons u vs ihv =>
        intro walk hw
        rcases ihv _ hw with hw | ⟨x, hx, hp⟩
        · exact (ih hw).imp id fun hp => ⟨u, List.mem_cons_self, hp⟩
        · exact Or.inr ⟨x, List.mem_cons_of_mem _ hx, hp⟩
    rw [walkFrom] at h
    split at h
    · exact Or.inl h
    · rcases List.mem_append.mp h with h | h
      · rcases hfold _ _ h with h | ⟨u, hu, hp⟩
        · exact Or.inl h
        · exact Or.inr (hp.head (mem_successors_iff.mp hu))
      · rw [List.mem_singleton.mp h]
        exact Or.inr Relation.ReflTransGen.refl

/-- **The depth-first walk lists all nodes** and nothing else. -/
theorem mem_finished_iff (hg : g.WellFormed) {v : α} : v ∈ g.finished ↔ v ∈ g.nodes := by
  constructor
  · have hfold : ∀ (vs : List α) (walk : Walk α), (∀ u ∈ vs, u ∈ g.nodes) →
        v ∈ (vs.foldl (g.walkFrom (g.nodes.length + 1)) walk).done →
        v ∈ walk.done ∨ v ∈ g.nodes := by
      intro vs
      induction vs with
      | nil => exact fun walk _ h => Or.inl h
      | cons u vs ih =>
        intro walk hvs h
        rcases ih _ (fun x hx => hvs x (List.mem_cons_of_mem _ hx)) h with h | h
        · exact (path_of_mem_done_walkFrom h).imp id
            fun hp => hg.mem_of_path (hvs u List.mem_cons_self) hp
        · exact Or.inr h
    exact fun h => (hfold _ _ (fun _ hu => hu) h).resolve_left (by simp)
  · intro h
    have hgrow := Walk.grows_foldl (grows_walkFrom (g := g) (g.nodes.length + 1))
    have hmet : ∀ (vs : List α) (walk : Walk α), v ∈ vs →
        v ∈ (vs.foldl (g.walkFrom (g.nodes.length + 1)) walk).met := by
      intro vs
      induction vs with
      | nil => exact fun walk h => absurd h (by simp)
      | cons u vs ih =>
        intro walk hv
        rcases List.mem_cons.mp hv with rfl | hv
        · exact (hgrow vs _).met v (mem_met_walkFrom _ walk v)
        · exact ih _ hv
    exact ((hgrow g.nodes ⟨[], []⟩).new v (hmet g.nodes _ h)).resolve_left (by simp)

/-! ### Splitting the nodes -/

/-- **The components of a graph, in any order**: each is the component of a node, each node
stands in one, and no node stands in two. -/
structure SplitBy (g : Digraph α) (parts : List (List α)) : Prop where
  component : ∀ c ∈ parts, ∃ v ∈ g.nodes, c = g.component v
  cover : ∀ v ∈ g.nodes, ∃ c ∈ parts, v ∈ c
  apart : parts.Pairwise fun c c' => ∀ v ∈ c, v ∉ c'

theorem mem_component_self {v : α} (hv : v ∈ g.nodes) : v ∈ g.component v :=
  mem_component_iff.mpr ⟨hv, Relation.ReflTransGen.refl, Relation.ReflTransGen.refl⟩

/-- Components with a node in common have all nodes in common. -/
theorem mem_component_of_mem {u v w x : α} (hx : x ∈ g.component u) (hx' : x ∈ g.component v)
    (hw : w ∈ g.component u) : w ∈ g.component v := by
  rw [mem_component_iff] at hx hx' hw ⊢
  exact ⟨hw.1, hx'.2.1.trans (hx.2.2.trans hw.2.1), hw.2.2.trans (hx.2.1.trans hx'.2.2)⟩

theorem exists_of_mem_componentsAlong {vs c : List α} (h : c ∈ g.componentsAlong vs) :
    ∃ v ∈ vs, c = g.component v := by
  induction vs with
  | nil => exact absurd h (by simp [componentsAlong])
  | cons v vs ih =>
    rw [componentsAlong] at h
    split at h
    · obtain ⟨w, hw, he⟩ := ih h
      exact ⟨w, List.mem_cons_of_mem _ hw, he⟩
    · rcases List.mem_cons.mp h with he | h
      · exact ⟨v, List.mem_cons_self, he⟩
      · obtain ⟨w, hw, he⟩ := ih h
        exact ⟨w, List.mem_cons_of_mem _ hw, he⟩

theorem exists_mem_componentsAlong {vs : List α} {v : α} (hv : v ∈ vs) (hnode : v ∈ g.nodes) :
    ∃ c ∈ g.componentsAlong vs, v ∈ c := by
  induction vs generalizing v with
  | nil => exact absurd hv (by simp)
  | cons u vs ih =>
    rw [componentsAlong]
    split
    · next hany =>
      rcases List.mem_cons.mp hv with rfl | hv
      · obtain ⟨w, hw, hwc⟩ := List.any_eq_true.mp hany
        have hwc : w ∈ g.component v := by simpa using hwc
        obtain ⟨c, hc, hwc'⟩ := ih hw (mem_component_iff.mp hwc).1
        obtain ⟨x, -, rfl⟩ := exists_of_mem_componentsAlong hc
        exact ⟨_, hc, mem_component_of_mem hwc hwc' (mem_component_self hnode)⟩
      · exact ih hv hnode
    · rcases List.mem_cons.mp hv with rfl | hv
      · exact ⟨_, List.mem_cons_self, mem_component_self hnode⟩
      · obtain ⟨c, hc, hvc⟩ := ih hv hnode
        exact ⟨c, List.mem_cons_of_mem _ hc, hvc⟩

theorem pairwise_componentsAlong (vs : List α) (hvs : ∀ v ∈ vs, v ∈ g.nodes) :
    (g.componentsAlong vs).Pairwise fun c c' => ∀ v ∈ c, v ∉ c' := by
  induction vs with
  | nil => exact List.Pairwise.nil
  | cons u vs ih =>
    have ih := ih fun v hv => hvs v (List.mem_cons_of_mem _ hv)
    rw [componentsAlong]
    split
    · exact ih
    · next hany =>
      refine List.pairwise_cons.mpr ⟨fun c hc v hvu hvc => hany ?_, ih⟩
      -- a node in common with a later component would put that component's own node into this one
      obtain ⟨w, hw, rfl⟩ := exists_of_mem_componentsAlong hc
      have hwu := mem_component_of_mem hvc hvu
        (mem_component_self (hvs w (List.mem_cons_of_mem _ hw)))
      exact List.any_eq_true.mpr ⟨w, hw, by simpa using hwu⟩

/-- **The components split the nodes.** -/
theorem splitBy_components (hg : g.WellFormed) : g.SplitBy g.components where
  component c hc := by
    obtain ⟨v, hv, he⟩ := exists_of_mem_componentsAlong hc
    exact ⟨v, (mem_finished_iff hg).mp hv, he⟩
  cover v hv := exists_mem_componentsAlong ((mem_finished_iff hg).mpr hv) hv
  apart := pairwise_componentsAlong _ fun _ hv => (mem_finished_iff hg).mp hv

/-! ### The numbers of the components -/

namespace SplitBy

variable {parts : List (List α)}

/-- **Components can be listed in any order.** -/
theorem perm (h : g.SplitBy parts) {others : List (List α)} (hperm : others.Perm parts) :
    g.SplitBy others where
  component c hc := h.component c (hperm.mem_iff.mp hc)
  cover v hv := by
    obtain ⟨c, hc, hvc⟩ := h.cover v hv
    exact ⟨c, hperm.mem_iff.mpr hc, hvc⟩
  apart := hperm.symm.pairwise h.apart fun {_ _} hab v hv hv' => hab v hv' hv

/-- The component that a node stands in is the one with its number. -/
theorem getElem?_numberOf (h : g.SplitBy parts) {v : α} (hv : v ∈ g.nodes) :
    ∃ c, parts[numberOf parts v]? = some c ∧ v ∈ c := by
  obtain ⟨c, hc, hvc⟩ := h.cover v hv
  have hlt : numberOf parts v < parts.length :=
    List.findIdx_lt_length_of_exists ⟨c, hc, by simpa using hvc⟩
  have hmem : decide (v ∈ parts[numberOf parts v]) = true := List.findIdx_getElem (w := hlt)
  exact ⟨parts[numberOf parts v], List.getElem?_eq_getElem hlt, of_decide_eq_true hmem⟩

theorem numberOf_lt (h : g.SplitBy parts) {v : α} (hv : v ∈ g.nodes) :
    numberOf parts v < parts.length := by
  obtain ⟨c, hc, -⟩ := h.getElem?_numberOf hv
  exact (List.getElem?_eq_some_iff.mp hc).1

theorem eq_component (h : g.SplitBy parts) {n : Nat} {c : List α} (hc : parts[n]? = some c)
    {v w : α} (hv : v ∈ c) : w ∈ c ↔ w ∈ g.component v := by
  obtain ⟨u, -, rfl⟩ := h.component c (List.mem_of_getElem? hc)
  have hnode := (mem_component_iff.mp hv).1
  exact ⟨mem_component_of_mem hv (mem_component_self hnode),
    mem_component_of_mem (mem_component_self hnode) hv⟩

theorem mem_nodes (h : g.SplitBy parts) {n : Nat} {c : List α} (hc : parts[n]? = some c) {v : α}
    (hv : v ∈ c) : v ∈ g.nodes := by
  obtain ⟨u, -, rfl⟩ := h.component c (List.mem_of_getElem? hc)
  exact (mem_component_iff.mp hv).1

theorem numberOf_eq (h : g.SplitBy parts) {n : Nat} {c : List α} (hc : parts[n]? = some c)
    {v : α} (hv : v ∈ c) : numberOf parts v = n := by
  obtain ⟨c', hc', hv'⟩ := h.getElem?_numberOf (h.mem_nodes hc hv)
  obtain ⟨hlt, rfl⟩ := List.getElem?_eq_some_iff.mp hc
  obtain ⟨hlt', rfl⟩ := List.getElem?_eq_some_iff.mp hc'
  rcases Nat.lt_trichotomy (numberOf parts v) n with hlo | he | hhi
  · exact absurd hv (List.pairwise_iff_getElem.mp h.apart _ _ hlt' hlt hlo v hv')
  · exact he
  · exact absurd hv' (List.pairwise_iff_getElem.mp h.apart _ _ hlt hlt' hhi v hv)

/-- **Two nodes have one number exactly if they lead to each other.** -/
theorem numberOf_eq_iff (h : g.SplitBy parts) {u v : α} (hu : u ∈ g.nodes) (hv : v ∈ g.nodes) :
    numberOf parts u = numberOf parts v ↔ g.Path u v ∧ g.Path v u := by
  obtain ⟨c, hc, huc⟩ := h.getElem?_numberOf hu
  obtain ⟨c', hc', hvc'⟩ := h.getElem?_numberOf hv
  constructor
  · intro he
    rw [he, hc'] at hc
    obtain rfl := Option.some.inj hc
    exact (mem_component_iff.mp ((h.eq_component hc' huc).mp hvc')).2
  · intro hpaths
    exact (h.numberOf_eq hc ((h.eq_component hc huc).mpr
      (mem_component_iff.mpr ⟨hv, hpaths⟩))).symm

end SplitBy

end TypeGraft.Digraph
