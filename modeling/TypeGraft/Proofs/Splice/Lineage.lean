import Mathlib.Data.Set.Insert
import TypeGraft.Proofs.Harvest.Ranks
import TypeGraft.Proofs.Splice.Inheritance

/-!
# The order of the bases

All bases of an interface are listed by a walk in depth (`TypeGraft.Harvest.InDepth`): it goes
through the bases that the interface names, in that order, and lists each one behind all that this
one extends. What is told of such walks holds whatever the depth at which
`TypeGraft.Harvest.ancestorsFrom` gives up, as long as there are not more bases left than that
(`TypeGraft.Harvest.leadsTo_ancestorsFrom`).

* `TypeGraft.Harvest.InDepth.walked`: nothing is listed twice, and nothing in front of what it
  extends, if no interface extends itself. The walk must not come back to an interface that it is
  still busy with, so these are kept apart from those that are done.
* `TypeGraft.Harvest.sublist_parentsOf`: the bases that an interface names are taken in the order in
  which it names them.
-/

namespace TypeGraft

namespace Digraph

variable {α : Type} {g : Digraph α}

/-- What is closed under edges is closed under paths. -/
theorem mem_of_transGen {closed : Set α} (h : ∀ u ∈ closed, ∀ v, g.Edge u v → v ∈ closed) {u v : α}
    (hu : u ∈ closed) (hpath : Relation.TransGen g.Edge u v) : v ∈ closed := by
  induction hpath with
  | single hedge => exact h _ hu _ hedge
  | tail _ hedge ih => exact h _ ih _ hedge

variable [DecidableEq α]

theorem nodup_successors (h : g.edges.Nodup) (u : α) : (g.successors u).Nodup := by
  refine List.Nodup.map_on (fun a ha b hb heq => ?_) (h.filter _)
  have ha : a.1 = u := of_decide_eq_true (List.mem_filter.mp ha).2
  have hb : b.1 = u := of_decide_eq_true (List.mem_filter.mp hb).2
  exact Prod.ext (ha.trans hb.symm) heq

theorem nodup_edges_addEdge (h : g.edges.Nodup) (u v : α) : (g.addEdge u v).edges.Nodup := by
  have hnode : ∀ (g : Digraph α) (w : α), (g.addNode w).edges = g.edges := by
    intro g w
    rw [addNode]
    split <;> rfl
  have hedges : ((g.addNode u).addNode v).edges = g.edges := (hnode _ v).trans (hnode g u)
  rw [addEdge]
  split
  · rwa [hedges]
  · next hnew =>
    rw [hedges] at hnew
    rw [hedges]
    exact List.nodup_append'.mpr ⟨h, List.nodup_singleton _, List.disjoint_singleton.mpr hnew⟩

end Digraph

namespace Harvest

variable {world : World} {s s' : Harvest}

/-! ### Walks in depth -/

/-- **A walk in depth** through bases that stand side by side, when some bases were met before: it
passes those by, and lists each other one behind all that this one extends. -/
inductive InDepth (s : Harvest) : (met : Set Key) → (siblings listed : List Key) → Prop where
  | done {met : Set Key} : InDepth s met [] []
  | pass {met : Set Key} {base : Key} {siblings listed : List Key} (hmet : base ∈ met)
      (hrest : InDepth s met siblings listed) : InDepth s met (base :: siblings) listed
  | enter {met : Set Key} {base : Key} {siblings above listed : List Key} (hmet : base ∉ met)
      (habove : InDepth s (insert base met) (s.parentsOf base) above)
      (hrest : InDepth s (insert base met ∪ {b | b ∈ above}) siblings listed) :
      InDepth s met (base :: siblings) (above ++ base :: listed)

/-- **What a walk is busy with** when it comes to some bases: interfaces that it met and that extend
these. What is done extends only what is done. -/
structure Busy (s : Harvest) (met busy : Set Key) (siblings : List Key) : Prop where
  subset : busy ⊆ met
  above : ∀ u ∈ busy, ∀ base ∈ siblings, Relation.TransGen s.inherits.Edge u base
  done : ∀ u ∈ met \ busy, ∀ v, s.inherits.Edge u v → v ∈ met \ busy

/-- **How bases are listed** by a walk that is still busy with some of those that it met. -/
structure Walked (s : Harvest) (met busy : Set Key) (siblings listed : List Key) : Prop where
  new : ∀ base ∈ listed, base ∉ met
  once : listed.Nodup
  all : ∀ base ∈ siblings, base ∈ met ∨ base ∈ listed
  closed : ∀ base ∈ listed, ∀ v, s.inherits.Edge base v → v ∈ met \ busy ∨ v ∈ listed
  ordered : listed.Pairwise fun a b => ¬Relation.TransGen s.inherits.Edge a b

variable {met busy : Set Key} {base : Key} {siblings above listed : List Key}

theorem Busy.tail (h : s.Busy met busy (base :: siblings)) : s.Busy met busy siblings :=
  ⟨h.subset, fun u hu b hb => h.above u hu b (List.mem_cons_of_mem _ hb), h.done⟩

theorem Walked.done : s.Walked met busy [] [] :=
  ⟨fun _ h => absurd h List.not_mem_nil, List.nodup_nil, fun _ h => absurd h List.not_mem_nil,
    fun _ h => absurd h List.not_mem_nil, List.Pairwise.nil⟩

theorem Walked.pass (h : s.Walked met busy siblings listed) (hmet : base ∈ met) :
    s.Walked met busy (base :: siblings) listed :=
  ⟨h.new, h.once, List.forall_mem_cons.mpr ⟨Or.inl hmet, h.all⟩, h.closed, h.ordered⟩

section Enter

/-! A walk that enters a base is busy with it until all that it extends is listed. -/

variable (h : s.Busy met busy (base :: siblings)) (hmet : base ∉ met)
include h hmet

theorem Busy.enter : s.Busy (insert base met) (insert base busy) (s.parentsOf base) where
  subset := Set.insert_subset_insert h.subset
  above := by
    intro u hu b hb
    have hedge := mem_parentsOf_iff.mp hb
    rcases Set.mem_insert_iff.mp hu with rfl | hu
    · exact Relation.TransGen.single hedge
    · exact (h.above u hu base List.mem_cons_self).tail hedge
  done := by
    rintro u ⟨hu, hidle⟩ v hedge
    rw [Set.mem_insert_iff, not_or] at hidle
    have hu := (Set.mem_insert_iff.mp hu).resolve_left hidle.1
    obtain ⟨hv, hv'⟩ := h.done u ⟨hu, hidle.2⟩ v hedge
    refine ⟨Set.mem_insert_of_mem _ hv, fun hmem => ?_⟩
    rcases Set.mem_insert_iff.mp hmem with rfl | hmem
    · exact hmet hv
    · exact hv' hmem

variable (hacyclic : ∀ v, ¬Relation.TransGen s.inherits.Edge v v)
  (habove : s.Walked (insert base met) (insert base busy) (s.parentsOf base) above)
include habove

omit h hmet in
theorem Walked.ne_base {b : Key} (hb : b ∈ above) : b ≠ base ∧ b ∉ met := by
  have hnew := habove.new b hb
  rwa [Set.mem_insert_iff, not_or] at hnew

omit hmet in
/-- What is listed above a base extends what is done, or is listed there too. -/
theorem Busy.closed_above : ∀ u ∈ met \ busy ∪ {b | b ∈ above}, ∀ v, s.inherits.Edge u v →
    v ∈ met \ busy ∪ {b | b ∈ above} := by
  rintro u (hu | hu) v hedge
  · exact Or.inl (h.done u hu v hedge)
  · refine (habove.closed u hu v hedge).imp_left fun ⟨hv, hidle⟩ => ?_
    rw [Set.mem_insert_iff, not_or] at hidle
    exact ⟨(Set.mem_insert_iff.mp hv).resolve_left hidle.1, hidle.2⟩

include hacyclic

omit hmet in
/-- The base extends neither itself nor what the walk is busy with. -/
theorem Busy.mem_of_edge {v : Key} (hedge : s.inherits.Edge base v) :
    v ∈ met \ busy ∪ {b | b ∈ above} := by
  rcases habove.all v (mem_parentsOf_iff.mpr hedge) with hv | hv
  · refine Or.inl ⟨(Set.mem_insert_iff.mp hv).resolve_left ?_, fun hmem => ?_⟩
    · rintro rfl
      exact hacyclic v (Relation.TransGen.single hedge)
    · exact hacyclic v ((h.above v hmem base List.mem_cons_self).tail hedge)
  · exact Or.inr hv

theorem Busy.mem_of_transGen {u v : Key} (hu : u ∈ above ∨ u = base)
    (hpath : Relation.TransGen s.inherits.Edge u v) : v ∈ met \ busy ∪ {b | b ∈ above} := by
  have hclosed := h.closed_above habove
  rcases hu with hu | rfl
  · exact Digraph.mem_of_transGen hclosed (Or.inr hu) hpath
  · obtain ⟨w, hedge, hrest⟩ := Relation.TransGen.head'_iff.mp hpath
    have hw := h.mem_of_edge hacyclic habove hedge
    rcases Relation.reflTransGen_iff_eq_or_transGen.mp hrest with rfl | hrest
    · exact hw
    · exact Digraph.mem_of_transGen hclosed hw hrest

theorem Busy.leave : s.Busy (insert base met ∪ {b | b ∈ above}) busy siblings where
  subset u hu := Or.inl (Set.mem_insert_of_mem _ (h.subset hu))
  above := h.tail.above
  done := by
    rintro u ⟨hu, hidle⟩ v hedge
    have hv : v ∈ met \ busy ∪ {b | b ∈ above} := by
      rcases hu with hu | hu
      · rcases Set.mem_insert_iff.mp hu with rfl | hu
        · exact h.mem_of_edge hacyclic habove hedge
        · exact Or.inl (h.done u ⟨hu, hidle⟩ v hedge)
      · exact h.closed_above habove u (Or.inr hu) v hedge
    rcases hv with ⟨hv, hv'⟩ | hv
    · exact ⟨Or.inl (Set.mem_insert_of_mem _ hv), hv'⟩
    · exact ⟨Or.inr hv, fun hmem => (habove.ne_base hv).2 (h.subset hmem)⟩

variable (hrest : s.Walked (insert base met ∪ {b | b ∈ above}) busy siblings listed)
include hrest

omit h hmet hacyclic habove in
theorem Walked.new_behind {b : Key} (hb : b ∈ listed) : b ≠ base ∧ b ∉ met ∧ b ∉ above := by
  have hnew := hrest.new b hb
  rw [Set.mem_union, Set.mem_insert_iff, not_or, not_or] at hnew
  exact ⟨hnew.1.1, hnew.1.2, hnew.2⟩

/-- What is listed later is extended neither by the base nor by what is listed above it. -/
theorem Busy.not_transGen_behind {u b : Key} (hu : u ∈ above ∨ u = base) (hb : b ∈ listed) :
    ¬Relation.TransGen s.inherits.Edge u b := by
  intro hpath
  obtain ⟨-, hnew, hlater⟩ := hrest.new_behind hb
  rcases h.mem_of_transGen hmet hacyclic habove hu hpath with ⟨hb, -⟩ | hb
  · exact hnew hb
  · exact hlater hb

omit hmet in
/-- What is listed extends what is done, or what is listed too. -/
theorem Busy.closed_entered : ∀ b ∈ above ++ base :: listed, ∀ v, s.inherits.Edge b v →
    v ∈ met \ busy ∨ v ∈ above ++ base :: listed := by
  intro b hb v hedge
  have hearly : v ∈ met \ busy ∪ {b | b ∈ above} → v ∈ met \ busy ∨ v ∈ above ++ base :: listed :=
    fun hv => hv.imp_right fun hv => List.mem_append_left _ hv
  rcases List.mem_append.mp hb with hb | hb
  · exact hearly (h.closed_above habove b (Or.inr hb) v hedge)
  · rcases List.mem_cons.mp hb with rfl | hb
    · exact hearly (h.mem_of_edge hacyclic habove hedge)
    · rcases hrest.closed b hb v hedge with ⟨hv | hv, hidle⟩ | hv
      · rcases Set.mem_insert_iff.mp hv with rfl | hv
        · exact Or.inr (List.mem_append_right _ List.mem_cons_self)
        · exact Or.inl ⟨hv, hidle⟩
      · exact Or.inr (List.mem_append_left _ hv)
      · exact Or.inr (List.mem_append_right _ (List.mem_cons_of_mem _ hv))

/-- **What is listed from a base on**: all that it extends, the base, and the rest. -/
theorem Walked.enter : s.Walked met busy (base :: siblings) (above ++ base :: listed) where
  new b hb hmem := by
    rcases List.mem_append.mp hb with hb | hb
    · exact (habove.ne_base hb).2 hmem
    · rcases List.mem_cons.mp hb with rfl | hb
      · exact hmet hmem
      · exact (hrest.new_behind hb).2.1 hmem
  once := by
    refine List.nodup_append'.mpr ⟨habove.once, List.nodup_cons.mpr ⟨fun hmem => ?_, hrest.once⟩,
      fun b hb hmem => ?_⟩
    · exact (hrest.new_behind hmem).1 rfl
    · rcases List.mem_cons.mp hmem with rfl | hmem
      · exact (habove.ne_base hb).1 rfl
      · exact (hrest.new_behind hmem).2.2 hb
  all := by
    refine List.forall_mem_cons.mpr ⟨Or.inr (List.mem_append_right _ List.mem_cons_self), ?_⟩
    intro b hb
    rcases hrest.all b hb with (hmem | hmem) | hmem
    · rcases Set.mem_insert_iff.mp hmem with rfl | hmem
      · exact Or.inr (List.mem_append_right _ List.mem_cons_self)
      · exact Or.inl hmem
    · exact Or.inr (List.mem_append_left _ hmem)
    · exact Or.inr (List.mem_append_right _ (List.mem_cons_of_mem _ hmem))
  closed := h.closed_entered hacyclic habove hrest
  ordered := by
    have hbehind := fun u hu b hb =>
      h.not_transGen_behind hmet hacyclic habove hrest (u := u) (b := b) hu hb
    refine List.pairwise_append.mpr ⟨habove.ordered, List.pairwise_cons.mpr
      ⟨hbehind base (Or.inr rfl), hrest.ordered⟩, fun a ha b hb hpath => ?_⟩
    rcases List.mem_cons.mp hb with rfl | hb
    · rcases h.mem_of_transGen hmet hacyclic habove (Or.inl ha) hpath with ⟨hmem, -⟩ | hmem
      · exact hmet hmem
      · exact (habove.ne_base hmem).1 rfl
    · exact hbehind a (Or.inl ha) b hb hpath

end Enter

/-- **Where nothing extends itself**, each base is listed behind all that it extends. -/
theorem InDepth.walked (hacyclic : ∀ v, ¬Relation.TransGen s.inherits.Edge v v)
    (h : s.InDepth met siblings listed) (hbusy : s.Busy met busy siblings) :
    s.Walked met busy siblings listed := by
  induction h generalizing busy with
  | done => exact .done
  | pass hmet _ ih => exact (ih hbusy.tail).pass hmet
  | enter hmet _ _ ih ih' =>
    have habove := ih (hbusy.enter hmet)
    exact .enter hbusy hmet hacyclic habove (ih' (hbusy.leave hmet hacyclic habove))

/-! ### The walk over the bases -/

/-- One more base of an interface, in a walk over all of them. -/
def enterBase (s : Harvest) (depth : Nat) (walk : AncestorWalk) (base : Key) : AncestorWalk :=
  if base ∈ walk.met then walk
  else
    let walk := s.ancestorsFrom depth { walk with met := base :: walk.met } base
    { walk with listed := walk.listed ++ [base] }

theorem ancestorsFrom_succ (depth : Nat) (walk : AncestorWalk) (key : Key) :
    s.ancestorsFrom (depth + 1) walk key = (s.parentsOf key).foldl (s.enterBase depth) walk := rfl

/-- **What a part of the walk does**: it lists what a walk in depth through some bases lists, and
has met this then. -/
def LeadsTo (s : Harvest) (walk : AncestorWalk) (siblings : List Key) (walk' : AncestorWalk) :
    Prop :=
  ∃ listed, walk'.listed = walk.listed ++ listed ∧
    {b | b ∈ walk'.met} = {b | b ∈ walk.met} ∪ {b | b ∈ listed} ∧
    s.InDepth {b | b ∈ walk.met} siblings listed

variable {walk walk' inner : AncestorWalk}

theorem LeadsTo.done (walk : AncestorWalk) : s.LeadsTo walk [] walk :=
  ⟨[], (List.append_nil _).symm, by simp, .done⟩

theorem LeadsTo.pass (h : s.LeadsTo walk siblings walk') (hmet : base ∈ walk.met) :
    s.LeadsTo walk (base :: siblings) walk' := by
  obtain ⟨listed, hlisted, hmet', hwalk⟩ := h
  exact ⟨listed, hlisted, hmet', .pass hmet hwalk⟩

theorem LeadsTo.subset (h : s.LeadsTo walk siblings walk') : walk.met ⊆ walk'.met := by
  obtain ⟨listed, -, hmet, -⟩ := h
  intro b hb
  have hb : b ∈ {b | b ∈ walk.met} ∪ {b | b ∈ listed} := Or.inl hb
  rwa [← hmet] at hb

/-- A base is entered: first comes all that it extends, and then the base. -/
theorem LeadsTo.enter (hnew : base ∉ walk.met)
    (habove : s.LeadsTo { walk with met := base :: walk.met } (s.parentsOf base) inner)
    (hrest : s.LeadsTo { inner with listed := inner.listed ++ [base] } siblings walk') :
    s.LeadsTo walk (base :: siblings) walk' := by
  obtain ⟨above, hlistedAbove, hmetAbove, hinner⟩ := habove
  obtain ⟨listed, hlisted, hmet, hwalk⟩ := hrest
  have hentered : {b | b ∈ base :: walk.met} = insert base {b | b ∈ walk.met} := by
    ext b
    simp
  rw [hentered] at hmetAbove hinner
  refine ⟨above ++ base :: listed, ?_, ?_, .enter hnew hinner (hmetAbove ▸ hwalk)⟩
  · rw [hlisted, hlistedAbove]
    simp only [List.append_assoc, List.singleton_append]
  · rw [hmet, hmetAbove]
    ext b
    simp only [Set.mem_union, Set.mem_insert_iff, Set.mem_ofPred_eq, List.mem_append,
      List.mem_cons]
    tauto

/-- **The walk over the bases** of an interface is one in depth, if there are not more bases to meet
than its depth. -/
theorem leadsTo_ancestorsFrom (hg : s.inherits.WellFormed) {depth : Nat} (walk : AncestorWalk)
    (key : Key) (hdepth : (s.unmet walk.met).card < depth) :
    s.LeadsTo walk (s.parentsOf key) (s.ancestorsFrom depth walk key) := by
  induction depth generalizing walk key with
  | zero => exact absurd hdepth (Nat.not_lt_zero _)
  | succ depth ih =>
    -- the bases are met one after the other, each with one level less to go
    have hfold : ∀ (bases : List Key) (walk' : AncestorWalk), (∀ b ∈ bases, b ∈ s.inherits.nodes) →
        walk.met ⊆ walk'.met → s.LeadsTo walk' bases (bases.foldl (s.enterBase depth) walk') := by
      intro bases
      induction bases with
      | nil => exact fun walk' _ _ => LeadsTo.done walk'
      | cons base bases ihb =>
        intro walk' hnodes hmet
        have hrest := fun b hb => hnodes b (List.mem_cons_of_mem _ hb)
        rw [List.foldl_cons, enterBase]
        split
        · next hold => exact (ihb walk' hrest hmet).pass hold
        · next hnew =>
          have hlt := card_unmet_cons_lt (s := s) (hnodes base List.mem_cons_self) hnew
          have hle := Finset.card_le_card (unmet_subset (s := s) hmet)
          have habove := ih { walk' with met := base :: walk'.met } base (by dsimp only; omega)
          exact .enter hnew habove (ihb _ hrest fun b hb =>
            habove.subset (List.mem_cons_of_mem _ (hmet hb)))
    rw [ancestorsFrom_succ]
    exact hfold (s.parentsOf key) walk (fun b hb => hg.right key b (mem_parentsOf_iff.mp hb))
      (List.Subset.refl _)

/-- **All bases of an interface** are listed by a walk in depth. -/
theorem inDepth_ancestors (hg : s.inherits.WellFormed) (key : Key) :
    s.InDepth {key} (s.parentsOf key) (s.ancestors key) := by
  have hdepth : (s.unmet [key]).card < s.inherits.nodes.length + 1 :=
    Nat.lt_succ_of_le (card_unmet_le s _)
  obtain ⟨listed, hlisted, -, hwalk⟩ := leadsTo_ancestorsFrom hg ⟨[key], []⟩ key hdepth
  have hkey : {b | b ∈ [key]} = ({key} : Set Key) := by
    ext b
    simp
  rw [hkey] at hwalk
  rw [ancestors, hlisted, List.nil_append]
  exact hwalk

/-- **Where nothing extends itself**, the bases are listed once, and each behind all that it
extends. -/
theorem walked_ancestors (hg : s.inherits.WellFormed)
    (hacyclic : ∀ v, ¬Relation.TransGen s.inherits.Edge v v) (key : Key) :
    s.Walked {key} {key} (s.parentsOf key) (s.ancestors key) := by
  refine (inDepth_ancestors hg key).walked hacyclic ⟨subset_rfl, fun u hu b hb => ?_,
    fun u hu => ?_⟩
  · rw [Set.mem_singleton_iff.mp hu]
    exact Relation.TransGen.single (mem_parentsOf_iff.mp hb)
  · rw [Set.sdiff_self] at hu
    exact absurd hu (Set.notMem_empty u)

/-! ### The bases that an interface names -/

/-- A change adds one edge of inheritance at most. -/
theorem Change.inherits (hc : Change world s s') :
    s'.inherits = s.inherits ∨ ∃ owner key, s'.inherits = s.inherits.addEdge owner key := by
  cases hc with
  | note | visit | mention | load => exact Or.inl rfl
  | leaveOut => exact Or.inl (graphs_leaveOut s _ _).2
  | takeIn request hd hg =>
    obtain ⟨numbers, -, heq⟩ := exists_takeIn s _ request hg
    exact Or.inl (by rw [heq])
  | @link ref r key e hr he hl =>
    cases htarget : r.target with
    | some old =>
      refine Or.inl ?_
      rw [link_of_target hr htarget]
    | none =>
      rcases graphs_link hr he htarget with ⟨-, -, heq⟩ | ⟨owner, -, hgraphs⟩
      · exact Or.inl heq
      · split at hgraphs
        · exact Or.inr ⟨owner, key, hgraphs.2⟩
        · exact Or.inl hgraphs.2

theorem nodup_inherits (hc : Changes world s s') (h : s.inherits.edges.Nodup) :
    s'.inherits.edges.Nodup := by
  induction hc with
  | refl => exact h
  | tail _ hstep ih =>
    rcases hstep.inherits with heq | ⟨owner, key, heq⟩
    · rwa [heq]
    · rw [heq]
      exact Digraph.nodup_edges_addEdge ih owner key

/-- What stands at increasing places of a list stands there in that order. -/
theorem sublist_of_places {α β : Type} {items : List α} {values : List β} (place : β → Nat)
    {f : α → Option β} {first : Nat} (hplaces : values.Pairwise fun a b => place a < place b)
    (h : ∀ v ∈ values, first ≤ place v ∧ ∃ x, items[place v]? = some x ∧ f x = some v) :
    values.Sublist ((items.drop first).filterMap f) := by
  induction values generalizing first with
  | nil => exact List.nil_sublist _
  | cons v values ih =>
    obtain ⟨hfirst, x, hx, hfx⟩ := h v List.mem_cons_self
    obtain ⟨hlater, hplaces⟩ := List.pairwise_cons.mp hplaces
    have hrest : values.Sublist ((items.drop (place v + 1)).filterMap f) :=
      ih hplaces fun w hw => ⟨hlater w hw, (h w (List.mem_cons_of_mem _ hw)).2⟩
    have hsplit : items.drop (place v) = x :: items.drop (place v + 1) := by
      obtain ⟨hlt, rfl⟩ := List.getElem?_eq_some_iff.mp hx
      exact List.drop_eq_getElem_cons hlt
    have hhere : (v :: values).Sublist ((items.drop (place v)).filterMap f) := by
      rw [hsplit, List.filterMap_cons_some hfx]
      exact hrest.cons_cons v
    exact hhere.trans ((List.drop_sublist_drop_left items hfirst).filterMap f)

/-- **The bases that an interface names** are taken in the order of the references to them. -/
theorem sublist_parentsOf (hranked : s.Ranked) (honce : s.inherits.edges.Nodup) (key : Key) :
    (s.parentsOf key).Sublist ((s.basesOf key).filterMap s.targetOf) := by
  have hedge : ∀ base ∈ s.parentsOf key, s.inherits.Edge key base :=
    fun base hbase => mem_parentsOf_iff.mp hbase
  have hsorted : (s.parentsOf key).Pairwise fun a b =>
      (s.parentOrder.get? (key, a)).getD 0 ≤ (s.parentOrder.get? (key, b)).getD 0 := by
    refine (List.pairwise_mergeSort (fun a b c hab hbc => ?_) (fun a b => ?_) _).imp
      fun hle => of_decide_eq_true hle
    · rw [decide_eq_true_eq] at hab hbc ⊢
      exact hab.trans hbc
    · rw [Bool.or_eq_true, decide_eq_true_eq, decide_eq_true_eq]
      exact Nat.le_total _ _
  have hnodup : (s.parentsOf key).Nodup :=
    (List.mergeSort_perm _ _).nodup_iff.mpr (Digraph.nodup_successors honce key)
  rw [← List.drop_zero (l := s.basesOf key)]
  refine sublist_of_places (fun base => (s.parentOrder.get? (key, base)).getD 0)
    ((hsorted.and hnodup).imp_of_mem fun {a b} ha hb hle => ?_)
    fun base hbase => ⟨Nat.zero_le _, ?_⟩
  · -- no two bases have one place
    obtain ⟨i, ref, hi, href, hta⟩ := hranked key a (hedge a ha)
    obtain ⟨j, ref', hj, href', htb⟩ := hranked key b (hedge b hb)
    rw [hi, hj, Option.getD_some, Option.getD_some] at hle
    rw [hi, hj, Option.getD_some, Option.getD_some]
    refine lt_of_le_of_ne hle.1 fun heq => hle.2 ?_
    subst heq
    obtain rfl := Option.some.inj (href.symm.trans href')
    exact Option.some.inj (hta.symm.trans htb)
  · obtain ⟨i, ref, hi, href, htarget⟩ := hranked key base (hedge base hbase)
    rw [hi, Option.getD_some]
    exact ⟨ref, href, htarget⟩

end Harvest

end TypeGraft
