import Mathlib.Data.Finset.Card
import TypeGraft.Proofs.Digraph.Circles
import TypeGraft.Proofs.Digraph.Order
import TypeGraft.Proofs.Splice.Merge

/-!
# All bases of an interface

* `TypeGraft.Harvest.mem_ancestors_iff`: the walk over the bases of an interface lists exactly
  those that can be reached from it. It is given enough depth, since each level meets a base that
  was not met before.
* `TypeGraft.Harvest.infix_absorbParents`: the members of all that is listed stand in the body of
  the interface.
-/

namespace TypeGraft

namespace Harvest

variable {s s' : Harvest}

/-! ### The walk over the bases -/

/-- The bases that a walk has not met. -/
def unmet (s : Harvest) (met : List Key) : Finset Key :=
  s.inherits.nodes.toFinset.filter fun key => key ∉ met

theorem card_unmet_le (s : Harvest) (met : List Key) :
    (s.unmet met).card ≤ s.inherits.nodes.length :=
  (Finset.card_filter_le _ _).trans (List.toFinset_card_le _)

theorem unmet_subset {met met' : List Key} (h : met ⊆ met') : s.unmet met' ⊆ s.unmet met := by
  intro key hkey
  rw [unmet, Finset.mem_filter] at hkey ⊢
  exact ⟨hkey.1, fun hmem => hkey.2 (h hmem)⟩

theorem card_unmet_cons_lt {met : List Key} {base : Key} (hnode : base ∈ s.inherits.nodes)
    (hnew : base ∉ met) : (s.unmet (base :: met)).card < (s.unmet met).card := by
  refine Finset.card_lt_card (Finset.ssubset_iff_of_subset
    (unmet_subset (List.subset_cons_self base met)) |>.mpr ⟨base, ?_, ?_⟩)
  · exact Finset.mem_filter.mpr ⟨List.mem_toFinset.mpr hnode, hnew⟩
  · rw [unmet, Finset.mem_filter]
    exact fun h => h.2 List.mem_cons_self

/-- **A walk goes on**: it forgets nothing, and of all that it meets it has listed it, and met what
that extends. -/
structure AncestorWalk.Grows (s : Harvest) (before after : AncestorWalk) : Prop where
  met : before.met ⊆ after.met
  listed : before.listed ⊆ after.listed
  new : ∀ base ∈ after.met, base ∈ before.met ∨
    (base ∈ after.listed ∧ ∀ v, s.inherits.Edge base v → v ∈ after.met)

theorem AncestorWalk.Grows.trans {a b c : AncestorWalk} (h : a.Grows s b) (h' : b.Grows s c) :
    a.Grows s c := by
  refine ⟨fun _ hv => h'.met (h.met hv), fun _ hv => h'.listed (h.listed hv), ?_⟩
  intro base hbase
  rcases h'.new base hbase with hb | hc
  · refine (h.new base hb).imp_right fun ⟨hlisted, hclosed⟩ => ?_
    exact ⟨h'.listed hlisted, fun v hv => h'.met (hclosed v hv)⟩
  · exact Or.inr hc

/-- **A walk meets all bases**, if there are not more bases to meet than its depth. -/
theorem ancestorsFrom_complete (hg : s.inherits.WellFormed) {depth : Nat} (walk : AncestorWalk)
    (key : Key) (hdepth : (s.unmet walk.met).card < depth) :
    walk.Grows s (s.ancestorsFrom depth walk key) ∧
      ∀ base, s.inherits.Edge key base → base ∈ (s.ancestorsFrom depth walk key).met := by
  induction depth generalizing walk key with
  | zero => exact absurd hdepth (Nat.not_lt_zero _)
  | succ depth ih =>
    let visit (walk : AncestorWalk) (base : Key) : AncestorWalk :=
      if base ∈ walk.met then walk
      else
        let walk := s.ancestorsFrom depth { walk with met := base :: walk.met } base
        { walk with listed := walk.listed ++ [base] }
    -- one base more, which is met and listed after its own bases
    have hvisit : ∀ (walk' : AncestorWalk) (base : Key), base ∈ s.inherits.nodes →
        walk.met ⊆ walk'.met → walk'.Grows s (visit walk' base) ∧
          base ∈ (visit walk' base).met := by
      intro walk' base hnode hmet
      by_cases hold : base ∈ walk'.met
      · simp only [visit, if_pos hold]
        exact ⟨⟨List.Subset.refl _, List.Subset.refl _, fun _ h => Or.inl h⟩, hold⟩
      · have hlt := card_unmet_cons_lt (s := s) hnode hold
        have hle := Finset.card_le_card (unmet_subset (s := s) hmet)
        obtain ⟨hgrows, hclosed⟩ :=
          ih { walk' with met := base :: walk'.met } base (by dsimp only; omega)
        simp only [visit, if_neg hold]
        refine ⟨⟨fun v hv => hgrows.met (List.mem_cons_of_mem _ hv),
          fun v hv => List.mem_append_left _ (hgrows.listed hv), ?_⟩,
          hgrows.met List.mem_cons_self⟩
        intro v hv
        rcases hgrows.new v hv with hv | ⟨hlisted, hv⟩
        · rcases List.mem_cons.mp hv with rfl | hv
          · exact Or.inr ⟨List.mem_append_right _ (List.mem_singleton_self _), hclosed⟩
          · exact Or.inl hv
        · exact Or.inr ⟨List.mem_append_left _ hlisted, hv⟩
    have hfold : ∀ (bases : List Key) (walk' : AncestorWalk), (∀ b ∈ bases, b ∈ s.inherits.nodes) →
        walk.met ⊆ walk'.met → walk'.Grows s (bases.foldl visit walk') ∧
          ∀ b ∈ bases, b ∈ (bases.foldl visit walk').met := by
      intro bases
      induction bases with
      | nil =>
        intro walk' _ _
        exact ⟨⟨List.Subset.refl _, List.Subset.refl _, fun _ h => Or.inl h⟩,
          fun _ h => absurd h List.not_mem_nil⟩
      | cons b bases ihb =>
        intro walk' hnodes hmet
        obtain ⟨hgrows, hb⟩ := hvisit walk' b (hnodes b List.mem_cons_self) hmet
        obtain ⟨hgrows', hbases⟩ := ihb (visit walk' b)
          (fun x hx => hnodes x (List.mem_cons_of_mem _ hx)) fun v hv => hgrows.met (hmet hv)
        refine ⟨hgrows.trans hgrows', fun x hx => ?_⟩
        rcases List.mem_cons.mp hx with rfl | hx
        · exact hgrows'.met hb
        · exact hbases x hx
    obtain ⟨hgrows, hbases⟩ := hfold (s.parentsOf key) walk
      (fun b hb => hg.right key b (mem_parentsOf_iff.mp hb)) (List.Subset.refl _)
    exact ⟨hgrows, fun base hedge => hbases base (mem_parentsOf_iff.mpr hedge)⟩

/-- **The bases of an interface**, direct or not, are all that can be reached from it. -/
theorem mem_ancestors_iff (hg : s.inherits.WellFormed) {key base : Key} :
    base ∈ s.ancestors key ↔ s.inherits.Path key base ∧ base ≠ key := by
  refine ⟨path_of_mem_ancestors, ?_⟩
  rintro ⟨hpath, hne⟩
  have hdepth : (s.unmet [key]).card < s.inherits.nodes.length + 1 :=
    Nat.lt_succ_of_le (s.card_unmet_le [key])
  obtain ⟨hgrows, hclosed⟩ :=
    ancestorsFrom_complete hg ⟨[key], []⟩ key hdepth
  have hmet : base ∈ (s.ancestorsFrom (s.inherits.nodes.length + 1) ⟨[key], []⟩ key).met := by
    clear hne
    induction hpath with
    | refl => exact hgrows.met (List.mem_singleton_self key)
    | tail _ hedge ih =>
      rcases hgrows.new _ ih with hkey | ⟨-, hnext⟩
      · rw [List.mem_singleton.mp hkey] at hedge
        exact hclosed _ hedge
      · exact hnext _ hedge
  rcases hgrows.new base hmet with hkey | ⟨hlisted, -⟩
  · exact absurd (List.mem_singleton.mp hkey) hne
  · exact hlisted

/-! ### The bodies -/

/-- What is put into a body stands there. -/
theorem infix_insertMembers (members body : Bytes) : members <:+: insertMembers members body := by
  unfold insertMembers
  dsimp only
  split
  · exact ⟨_, _, rfl⟩
  · exact ⟨[], body, rfl⟩

/-- Every declaration that was found has a body, which is its own with the slots filled. -/
theorem get?_of_filledBodies {own : Table Key Bytes} (h : s.filledBodies = .ok own) {key : Key}
    {e : Graft} (he : s.graft? key = some e) :
    ∃ body, filledBody e = .ok body ∧ own.get? key = some body := by
  have hall : List.Forall₂ (fun (g : Key × Graft) result =>
      (filledBody g.2).map (fun body => (g.1, body)) = .ok result) s.grafts own :=
    forall₂_of_mapM h
  rw [graft?] at he
  clear h
  generalize s.grafts = grafts at hall he
  induction hall with
  | nil => exact absurd he (by simp)
  | @cons entry result _ _ hentry _ ih =>
    obtain ⟨k, e'⟩ := entry
    dsimp only at hentry
    cases hbody : filledBody e' with
    | error failure =>
      rw [hbody] at hentry
      exact absurd hentry (by simp [Except.map])
    | ok body =>
      rw [hbody] at hentry
      obtain rfl := Except.ok.inj hentry
      rw [Table.get?_cons] at he ⊢
      split
      · next hk =>
        rw [if_pos hk] at he
        obtain rfl := Option.some.inj he
        exact ⟨body, hbody, rfl⟩
      · next hk =>
        rw [if_neg hk] at he
        exact ih he

theorem isSome_get?_of_filledBodies {own : Table Key Bytes} (h : s.filledBodies = .ok own)
    {key : Key} (hg : (s.graft? key).isSome) : (own.get? key).isSome := by
  obtain ⟨e, he⟩ := Option.isSome_iff_exists.mp hg
  obtain ⟨body, -, hbody⟩ := get?_of_filledBodies h he
  rw [hbody]
  rfl

/-- If each body can be filled, all of them can. -/
theorem exists_filledBodies (h : ∀ key e, (key, e) ∈ s.grafts → ∃ body, filledBody e = .ok body) :
    ∃ own, s.filledBodies = .ok own := by
  refine exists_mapM fun entry hentry => ?_
  obtain ⟨body, hbody⟩ := h entry.1 entry.2 hentry
  dsimp only
  rw [hbody]
  exact ⟨_, rfl⟩

/-- **The members of all bases stand in the body of an interface.** -/
theorem infix_absorbParents (hg : s.inherits.WellFormed) {orders : Orders}
    (horder : orders.absorbOrder = s.inherits.successorsFirst
      (s.inherits.nodes.filter fun v => 0 < s.inherits.outDegree v))
    {own : Table Key Bytes} {key base : Key} (hown : (own.get? key).isSome)
    (hbase : base ∈ s.ancestors key) :
    memberText ((own.get? base).getD []) <:+:
      ((s.absorbParents orders own).2.get? key).getD [] := by
  obtain ⟨hpath, hne⟩ := path_of_mem_ancestors hbase
  obtain ⟨body, hbody⟩ := Option.isSome_iff_exists.mp hown
  have hkey : key ∈ orders.absorbOrder := by
    rcases Relation.ReflTransGen.cases_head hpath with rfl | ⟨next, hedge, -⟩
    · exact absurd rfl hne
    · have hnode := hg.left key next hedge
      rw [horder, Digraph.mem_successorsFirst_iff hg]
      refine ⟨key, List.mem_filter.mpr ⟨hnode, ?_⟩, hnode, Relation.ReflTransGen.refl⟩
      exact decide_eq_true (List.length_pos_of_mem (Digraph.mem_successors_iff.mpr hedge))
  have hget : (s.absorbParents orders own).2.get? key = some (s.inheritedBody own key) := by
    change Table.get? (own.map fun entry => (entry.1,
      if entry.1 ∈ orders.absorbOrder then s.inheritedBody own entry.1 else entry.2)) key = _
    rw [Table.get?_mapEntry, hbody, Option.map_some, if_pos hkey]
  have hmembers : memberText ((own.get? base).getD []) <:+:
      (s.ancestors key).flatMap fun base => memberText ((own.get? base).getD []) := by
    obtain ⟨front, back, hsplit⟩ := List.append_of_mem hbase
    rw [hsplit, List.flatMap_append, List.flatMap_cons]
    exact ⟨_, _, List.append_assoc _ _ _⟩
  rw [hget, Option.getD_some, inheritedBody]
  split
  · next hnil =>
    rw [hnil] at hbase
    exact absurd hbase List.not_mem_nil
  · exact hmembers.trans (infix_insertMembers _ _)

end Harvest

end TypeGraft
