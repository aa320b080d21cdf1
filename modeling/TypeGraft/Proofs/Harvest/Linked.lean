import TypeGraft.Proofs.Digraph.Reach
import TypeGraft.Proofs.Harvest.Change

/-!
# What is noted of the references

What depends on what is noted in two graphs while the references are resolved
(`TypeGraft.Harvest.Linked`): for every reference that is resolved, either what it was resolved to
is left out for it, or it was taken in, and an edge leads to it from the owner of the reference.
The edge is one of inheritance for a base with members, and one of dependency for all others.

* `TypeGraft.Harvest.Change.of_reference?`: where the references come from. They are those that
  were there before, and new ones that are not resolved, in declarations that were taken in.
* `TypeGraft.Harvest.Rooted`: what is mentioned in a request is one of the requests.
-/

namespace TypeGraft.Harvest

variable {world : World} {s s' : Harvest}

/-! ### Where references come from -/

theorem Change.length_references (h : Change world s s') :
    s'.references.length = s.references.length ∨ ∃ references : List Reference,
      s'.references = s.references ++ references ∧ ∀ r ∈ references, r.target = none ∧
        r.kind ≠ .root ∧ ∃ owner, r.owner = some owner ∧ (s.graft? owner).isSome := by
  have hresolve : ∀ (r : Reference) (ref : RefId) (key : Key),
      (if r.isResolved then s else s.resolve ref key).references.length = s.references.length := by
    intro r ref key
    split
    · rfl
    · exact List.length_modify _ _ _
  cases h with
  | note => exact Or.inl rfl
  | visit => exact Or.inl (List.length_modify _ _ _)
  | link hr he hl =>
    rw [(search_link hr (by rw [he]; rfl)).1]
    exact Or.inl (hresolve _ _ _)
  | leaveOut hr hd hl =>
    rw [(search_leaveOut hr _).1]
    exact Or.inl (hresolve _ _ _)
  | takeIn request hd hg =>
    obtain ⟨numbers, -, heq⟩ := exists_takeIn s _ request hg
    rw [heq]
    exact Or.inl rfl
  | mention h => exact Or.inr ⟨_, rfl, h⟩
  | load => exact Or.inl rfl

/-- **Where references come from**: a reference was there before, or a declaration that was taken
in mentions it. -/
theorem Change.of_reference? (h : Change world s s') {ref : RefId} {r' : Reference}
    (hr' : s'.reference? ref = some r') : (∃ r, s.reference? ref = some r ∧ r.Grows r') ∨
      (r'.target = none ∧ r'.kind ≠ .root ∧
        ∃ owner, r'.owner = some owner ∧ (s.graft? owner).isSome) := by
  cases hr : s.reference? ref with
  | some r =>
    obtain ⟨r'', hr'', hg⟩ := h.reference hr
    obtain rfl := Option.some.inj (hr''.symm.trans hr')
    exact Or.inl ⟨r, rfl, hg⟩
  | none =>
    -- a reference that was not there stands among those that were added
    have hge : s.references.length ≤ ref := List.getElem?_eq_none_iff.mp hr
    have hlt : ref < s'.references.length := (List.getElem?_eq_some_iff.mp hr').1
    rcases h.length_references with hlength | ⟨references, heq, hnew⟩
    · rw [hlength] at hlt
      exact absurd hlt (Nat.not_lt.mpr hge)
    · rw [reference?, heq, List.getElem?_append_right hge] at hr'
      exact Or.inr (hnew r' (List.mem_of_getElem? hr'))

/-- **What is mentioned in a request is one of the requests**, and not the property of a
declaration. -/
structure Rooted (s : Harvest) : Prop where
  root : ∀ ref r, s.reference? ref = some r → r.kind = .root → ref ∈ s.roots
  plain : ∀ ref ∈ s.roots, ∃ r, s.reference? ref = some r ∧ r.owner = none ∧ r.nested = false

theorem Rooted.change (h : s.Rooted) (hc : Change world s s') : s'.Rooted := by
  constructor
  · intro ref r' hr' hkind
    rw [hc.roots]
    rcases hc.of_reference? hr' with ⟨r, hr, hg⟩ | ⟨-, hnot, -⟩
    · have hsame : r'.kind = r.kind := congrArg (fun r => r.kind) hg.bare
      exact h.root ref r hr (hsame.symm.trans hkind)
    · exact absurd hkind hnot
  · intro ref href
    rw [hc.roots] at href
    obtain ⟨r, hr, howner, hnested⟩ := h.plain ref href
    obtain ⟨r', hr', hg⟩ := hc.reference hr
    have howner' : r'.owner = r.owner := congrArg (fun r => r.owner) hg.bare
    have hnested' : r'.nested = r.nested := congrArg (fun r => r.nested) hg.bare
    exact ⟨r', hr', howner'.trans howner, hnested'.trans hnested⟩

theorem Rooted.changes (h : s.Rooted) (hc : Changes world s s') : s'.Rooted := by
  induction hc with
  | refl => exact h
  | tail _ hstep ih => exact ih.change hstep

/-! ### What is noted -/

/-- **A reference that is linked** to a declaration. -/
def LinkedTo (s : Harvest) (r : Reference) (key : Key) : Prop :=
  (∃ d, s.declaration? key = some d ∧ s.leavesOut r d = true) ∨
    ∃ e, s.graft? key = some e ∧ s.leavesOut r e.declaration = false ∧
      ∀ owner, r.owner = some owner →
        if r.kind = .extends_ ∧ e.declaration.hasMembers = true then s.inherits.Edge owner key
        else s.dependencies.Edge owner key

/-- **What is noted while references are resolved.** -/
structure Linked (s : Harvest) : Prop where
  dependencies : s.dependencies.WellFormed
  inherits : s.inherits.WellFormed
  /-- What was taken in is what there are dependencies of. -/
  nodes : ∀ key, key ∈ s.dependencies.nodes ↔ (s.graft? key).isSome
  parents : ∀ key ∈ s.inherits.nodes, (s.graft? key).isSome
  owner : ∀ ref r owner, s.reference? ref = some r → r.owner = some owner →
    (s.graft? owner).isSome
  target : ∀ ref r key, s.reference? ref = some r → r.target = some key → s.LinkedTo r key

/-- The graphs grow. -/
structure Wider (s s' : Harvest) : Prop where
  dependencies : ∀ u v, s.dependencies.Edge u v → s'.dependencies.Edge u v
  inherits : ∀ u v, s.inherits.Edge u v → s'.inherits.Edge u v

theorem Wider.of_eq (hd : s'.dependencies = s.dependencies) (hi : s'.inherits = s.inherits) :
    s.Wider s' := by
  constructor
  · intro u v he
    rw [hd]
    exact he
  · intro u v he
    rw [hi]
    exact he

theorem LinkedTo.grow {r r' : Reference} {key : Key} (h : s.LinkedTo r key)
    (hc : Change world s s') (hw : s.Wider s') (hg : r.Grows r') : s'.LinkedTo r' key := by
  have howner : r'.owner = r.owner := congrArg (fun r => r.owner) hg.bare
  have hkind : r'.kind = r.kind := congrArg (fun r => r.kind) hg.bare
  have hnested : r'.nested = r.nested := congrArg (fun r => r.nested) hg.bare
  have hleaves : ∀ d, s'.leavesOut r' d = s.leavesOut r d := by
    intro d
    rw [leavesOut, leavesOut, isEntryFile, isEntryFile, hc.entry, hnested]
  rcases h with ⟨d, hd, hl⟩ | ⟨e, he, hl, hedge⟩
  · exact Or.inl ⟨d, hc.declaration? hd, (hleaves d).trans hl⟩
  · obtain ⟨e', he', hd', -⟩ := hc.graft he
    refine Or.inr ⟨e', he', by rw [hd', hleaves, hl], ?_⟩
    intro owner ho
    have hedge := hedge owner (howner.symm.trans ho)
    rw [hkind, hd']
    split at hedge
    · next hp =>
      rw [if_pos hp]
      exact hw.inherits _ _ hedge
    · next hp =>
      rw [if_neg hp]
      exact hw.dependencies _ _ hedge

/-- **A change keeps what is noted**, if it keeps the graphs well-formed and links what it
resolves. -/
theorem Linked.extend (h : s.Linked) (hc : Change world s s') (hw : s.Wider s')
    (hdependencies : s'.dependencies.WellFormed) (hinherits : s'.inherits.WellFormed)
    (hnodes : ∀ key, key ∈ s'.dependencies.nodes ↔ (s'.graft? key).isSome)
    (hparents : ∀ key ∈ s'.inherits.nodes, (s'.graft? key).isSome)
    (hnew : ∀ ref r r' key, s.reference? ref = some r → s'.reference? ref = some r' →
      r.target = none → r'.target = some key → s'.LinkedTo r' key) : s'.Linked := by
  refine ⟨hdependencies, hinherits, hnodes, hparents, ?_, ?_⟩
  · intro ref r' owner hr' howner
    rcases hc.of_reference? hr' with ⟨r, hr, hg⟩ | ⟨-, -, owner', howner', hgraft⟩
    · have hsame : r'.owner = r.owner := congrArg (fun r => r.owner) hg.bare
      exact hc.isSome_graft? (h.owner ref r owner hr (hsame.symm.trans howner))
    · rw [Option.some.inj (howner.symm.trans howner')]
      exact hc.isSome_graft? hgraft
  · intro ref r' key hr' hkey
    rcases hc.of_reference? hr' with ⟨r, hr, hg⟩ | ⟨hnone, -⟩
    · cases htarget : r.target with
      | none => exact hnew ref r r' key hr hr' htarget hkey
      | some key' =>
        obtain rfl : key' = key := Option.some.inj ((hg.target key' htarget).symm.trans hkey)
        exact (h.target ref r key' hr htarget).grow hc hw hg
    · rw [hnone] at hkey
      exact absurd hkey (by simp)

/-! ### What each change notes -/

theorem graphs_leaveOut (s : Harvest) (ref : RefId) (key : Key) :
    (s.leaveOut ref key).dependencies = s.dependencies ∧
      (s.leaveOut ref key).inherits = s.inherits := by
  obtain ⟨_, _, heq⟩ := exists_leaveOut s ref key
  rw [heq]
  exact ⟨rfl, rfl⟩

/-- **Linking a reference** adds one edge, if the reference has an owner. -/
theorem graphs_link {ref : RefId} {r : Reference} {key : Key} {e : Graft}
    (hr : s.reference? ref = some r) (he : s.graft? key = some e) (hopen : r.target = none) :
    (r.owner = none ∧ (s.link ref key).dependencies = s.dependencies ∧
      (s.link ref key).inherits = s.inherits) ∨
    ∃ owner, r.owner = some owner ∧
      if r.kind = .extends_ ∧ e.declaration.hasMembers = true then
        (s.link ref key).dependencies = s.dependencies ∧
          (s.link ref key).inherits = s.inherits.addEdge owner key
      else
        (s.link ref key).dependencies = s.dependencies.addEdge owner key ∧
          (s.link ref key).inherits = s.inherits := by
  rw [link_of_open hr he hopen]
  cases howner : r.owner with
  | none =>
    obtain ⟨rootEdits, heq⟩ := exists_linkRequest (s.resolve ref key) r e.newName
    refine Or.inl ⟨rfl, ?_⟩
    dsimp only
    rw [heq]
    exact ⟨rfl, rfl⟩
  | some owner =>
    refine Or.inr ⟨owner, rfl, ?_⟩
    dsimp only
    split
    · exact ⟨rfl, rfl⟩
    · obtain ⟨grafts, heq⟩ := exists_linkSlot (s.resolve ref key) r owner key e.newName
      rw [heq]
      exact ⟨rfl, rfl⟩

/-- What is resolved when one reference is. -/
theorem eq_of_resolved {ref ref' : RefId} {r r₀ r' : Reference} {key key' : Key}
    (hreferences : s'.references = (s.resolve ref key).references)
    (hr : s.reference? ref = some r) (hr₀ : s.reference? ref' = some r₀)
    (hr' : s'.reference? ref' = some r') (hopen : r₀.target = none) (hkey : r'.target = some key') :
    key' = key ∧ r' = { r with target := some key } := by
  have href : s'.reference? ref' = (s.resolve ref key).reference? ref' := by
    rw [reference?, hreferences]
    rfl
  rw [href, resolve, reference?_modifyReference] at hr'
  split at hr'
  · next hsame =>
    subst hsame
    rw [hr] at hr'
    obtain rfl := Option.some.inj hr'
    exact ⟨(Option.some.inj hkey).symm, rfl⟩
  · rw [hr₀] at hr'
    rw [← Option.some.inj hr', hopen] at hkey
    exact absurd hkey (by simp)

/-- References that stay as they are resolve nothing. -/
theorem linkedTo_of_target (htarget : ∀ ref r r', s.reference? ref = some r →
    s'.reference? ref = some r' → r'.target = r.target) :
    ∀ ref r r' key, s.reference? ref = some r → s'.reference? ref = some r' → r.target = none →
      r'.target = some key → s'.LinkedTo r' key := by
  intro ref r r' key hr hr' hopen hkey
  rw [htarget ref r r' hr hr', hopen] at hkey
  exact absurd hkey (by simp)

namespace Linked

variable (h : s.Linked)
include h

/-- A change that leaves the graphs alone. -/
theorem of_graphs (hc : Change world s s') (hkeeps : s.Keeps s')
    (hgraphs : s'.dependencies = s.dependencies ∧ s'.inherits = s.inherits)
    (hnew : ∀ ref r r' key, s.reference? ref = some r → s'.reference? ref = some r' →
      r.target = none → r'.target = some key → s'.LinkedTo r' key) : s'.Linked := by
  obtain ⟨hdependencies, hinherits⟩ := hgraphs
  refine h.extend hc (Wider.of_eq hdependencies hinherits) (hdependencies ▸ h.dependencies)
    (hinherits ▸ h.inherits) ?_ ?_ hnew
  · intro key
    rw [hdependencies, hkeeps.isSome_graft?]
    exact h.nodes key
  · intro key hkey
    rw [hinherits] at hkey
    rw [hkeeps.isSome_graft?]
    exact h.parents key hkey

theorem leaveOut {ref : RefId} {r : Reference} {key : Key} {d : Declaration}
    (hc : Change world s (s.leaveOut ref key)) (hr : s.reference? ref = some r)
    (hd : s.declaration? key = some d) (hl : s.leavesOut r d = true) :
    (s.leaveOut ref key).Linked := by
  have hkeeps := keeps_leaveOut s ref key
  have hreferences := (search_leaveOut hr key).1
  refine h.of_graphs hc hkeeps (graphs_leaveOut s ref key) ?_
  intro i r₀ r' k hr₀ hr' hopen hk
  -- a reference that was resolved before is not resolved again
  split at hreferences
  · rw [reference?, hreferences] at hr'
    rw [Option.some.inj (hr₀.symm.trans hr'), hk] at hopen
    exact absurd hopen (by simp)
  · obtain ⟨rfl, rfl⟩ := eq_of_resolved hreferences hr hr₀ hr' hopen hk
    exact Or.inl ⟨d, (hkeeps.declaration? _).trans hd, (hkeeps.leavesOut _ d).trans hl⟩

/-- A change that adds an edge of inheritance. -/
theorem of_addParent {owner key : Key} (hc : Change world s s') (hkeeps : s.Keeps s')
    (hdependencies : s'.dependencies = s.dependencies)
    (hinherits : s'.inherits = s.inherits.addEdge owner key)
    (howner : (s.graft? owner).isSome) (hkey : (s.graft? key).isSome)
    (hnew : ∀ ref r r' k, s.reference? ref = some r → s'.reference? ref = some r' →
      r.target = none → r'.target = some k → s'.LinkedTo r' k) : s'.Linked := by
  have hwider : s.Wider s' := by
    constructor
    · intro u v huv
      rw [hdependencies]
      exact huv
    · intro u v huv
      rw [hinherits]
      exact Digraph.edge_addEdge_iff.mpr (Or.inl huv)
  refine h.extend hc hwider (hdependencies ▸ h.dependencies)
    (hinherits ▸ h.inherits.addEdge owner key) ?_ ?_ hnew
  · intro k
    rw [hdependencies, hkeeps.isSome_graft?]
    exact h.nodes k
  · intro k hk
    rw [hinherits] at hk
    rw [hkeeps.isSome_graft?]
    rcases Digraph.mem_nodes_addEdge.mp hk with hk | rfl | rfl
    · exact h.parents k hk
    · exact howner
    · exact hkey

/-- A change that adds an edge of dependency. -/
theorem of_addUse {owner key : Key} (hc : Change world s s') (hkeeps : s.Keeps s')
    (hdependencies : s'.dependencies = s.dependencies.addEdge owner key)
    (hinherits : s'.inherits = s.inherits)
    (howner : (s.graft? owner).isSome) (hkey : (s.graft? key).isSome)
    (hnew : ∀ ref r r' k, s.reference? ref = some r → s'.reference? ref = some r' →
      r.target = none → r'.target = some k → s'.LinkedTo r' k) : s'.Linked := by
  have hwider : s.Wider s' := by
    -- both ends of the edge were taken in before
    constructor
    · intro u v huv
      rw [hdependencies]
      exact Digraph.edge_addEdge_iff.mpr (Or.inl huv)
    · intro u v huv
      rw [hinherits]
      exact huv
  refine h.extend hc hwider (hdependencies ▸ h.dependencies.addEdge owner key)
    (hinherits ▸ h.inherits) ?_ ?_ hnew
  · intro k
    rw [hdependencies, hkeeps.isSome_graft?, Digraph.mem_nodes_addEdge, h.nodes k]
    constructor
    · rintro (hk | rfl | rfl)
      · exact hk
      · exact howner
      · exact hkey
    · exact Or.inl
  · intro k hk
    rw [hinherits] at hk
    rw [hkeeps.isSome_graft?]
    exact h.parents k hk

theorem link {ref : RefId} {r : Reference} {key : Key} {e : Graft}
    (hc : Change world s (s.link ref key)) (hr : s.reference? ref = some r)
    (he : s.graft? key = some e) (hl : s.leavesOut r e.declaration = false) :
    (s.link ref key).Linked := by
  have hkeeps := keeps_link s ref key
  have hgraft : (s.graft? key).isSome := by
    rw [he]
    rfl
  have hreferences := (search_link hr hgraft).1
  cases htarget : r.target with
  | some old =>
    rw [link_of_target hr htarget]
    exact h
  | none =>
    rw [Reference.isResolved, htarget] at hreferences
    -- only this reference was resolved, so one edge is all that there is to show
    have hlinked : (∀ owner, r.owner = some owner →
        if r.kind = .extends_ ∧ e.declaration.hasMembers = true then
          (s.link ref key).inherits.Edge owner key
        else (s.link ref key).dependencies.Edge owner key) →
      ∀ i r₀ r' k, s.reference? i = some r₀ → (s.link ref key).reference? i = some r' →
        r₀.target = none → r'.target = some k → (s.link ref key).LinkedTo r' k := by
      intro hedge i r₀ r' k hr₀ hr' hopen₀ hk
      obtain ⟨rfl, rfl⟩ := eq_of_resolved hreferences hr hr₀ hr' hopen₀ hk
      obtain ⟨e', he', hd', -⟩ := hkeeps.graft he
      refine Or.inr ⟨e', he', ?_, ?_⟩
      · rw [hd', hkeeps.leavesOut]
        exact hl
      · intro owner howner
        rw [hd']
        exact hedge owner howner
    rcases graphs_link hr he htarget with ⟨hnone, hgraphs⟩ | ⟨owner, howner, hgraphs⟩
    · refine h.of_graphs hc hkeeps hgraphs (hlinked ?_)
      intro owner howner
      rw [hnone] at howner
      exact absurd howner (by simp)
    · have hownerGraft : (s.graft? owner).isSome := h.owner ref r owner hr howner
      split at hgraphs
      · next hp =>
        obtain ⟨hdependencies, hinherits⟩ := hgraphs
        refine h.of_addParent hc hkeeps hdependencies hinherits hownerGraft hgraft (hlinked ?_)
        intro owner' howner'
        rw [if_pos hp, hinherits, Option.some.inj (howner'.symm.trans howner)]
        exact Digraph.edge_addEdge_iff.mpr (Or.inr ⟨rfl, rfl⟩)
      · next hp =>
        obtain ⟨hdependencies, hinherits⟩ := hgraphs
        refine h.of_addUse hc hkeeps hdependencies hinherits hownerGraft hgraft (hlinked ?_)
        intro owner' howner'
        rw [if_neg hp, hdependencies, Option.some.inj (howner'.symm.trans howner)]
        exact Digraph.edge_addEdge_iff.mpr (Or.inr ⟨rfl, rfl⟩)

theorem takeIn {d : Declaration} (request : Option String)
    (hc : Change world s (s.takeIn d request).1) (hg : s.graft? d.key = none) :
    (s.takeIn d request).1.Linked := by
  obtain ⟨numbers, -, heq⟩ := exists_takeIn s d request hg
  have hdependencies : (s.takeIn d request).1.dependencies = s.dependencies.addNode d.key := by
    rw [heq]
  have hinherits : (s.takeIn d request).1.inherits = s.inherits := by rw [heq]
  have hreferences : (s.takeIn d request).1.references = s.references := by rw [heq]
  refine h.extend hc ⟨?_, ?_⟩ (hdependencies ▸ h.dependencies.addNode d.key)
    (hinherits ▸ h.inherits) ?_ ?_ (linkedTo_of_target ?_)
  · intro u v huv
    rw [hdependencies]
    exact Digraph.edge_addNode_iff.mpr huv
  · intro u v huv
    rw [hinherits]
    exact huv
  · intro key
    rw [hdependencies, graft?_takeIn request hg, Digraph.mem_nodes_addNode, h.nodes key]
    split
    · next hkey => simp [hkey]
    · next hkey => simp [Ne.symm hkey]
  · intro key hkey
    rw [hinherits] at hkey
    exact hc.isSome_graft? (h.parents key hkey)
  · intro ref r r' hr hr'
    rw [reference?, hreferences] at hr'
    rw [Option.some.inj (hr.symm.trans hr')]

/-- **Every change keeps what is noted.** -/
theorem change (hc : Change world s s') : s'.Linked := by
  have hc' := hc
  cases hc with
  | note synonyms events reads parentRefs =>
    refine h.of_graphs hc' (keeps_note s _ _ _ _) ⟨rfl, rfl⟩ (linkedTo_of_target ?_)
    intro ref r r' hr hr'
    rw [Option.some.inj (hr.symm.trans hr')]
  | visit ref place =>
    refine h.of_graphs hc' (keeps_modifyReference s ref _) ⟨rfl, rfl⟩ (linkedTo_of_target ?_)
    intro i r r' hr hr'
    rw [reference?_modifyReference, hr] at hr'
    split at hr'
    · rw [← Option.some.inj hr']
    · rw [Option.some.inj hr']
  | link hr he hl => exact h.link hc' hr he hl
  | leaveOut hr hd hl => exact h.leaveOut hc' hr hd hl
  | takeIn request hd hg => exact h.takeIn request hc' hg
  | mention hnew =>
    refine h.of_graphs hc' ⟨rfl, rfl, rfl, rfl, rfl, rfl, rfl⟩ ⟨rfl, rfl⟩ (linkedTo_of_target ?_)
    intro ref r r' hr hr'
    rw [reference?, addReferences,
      List.getElem?_append_left (List.getElem?_eq_some_iff.mp hr).1] at hr'
    rw [Option.some.inj (hr.symm.trans hr')]
  | load hw hnew hsource =>
    refine h.extend hc' (Wider.of_eq rfl rfl) h.dependencies h.inherits h.nodes h.parents
      (linkedTo_of_target ?_)
    intro ref r r' hr hr'
    rw [Option.some.inj (hr.symm.trans hr')]

theorem changes (hc : Changes world s s') : s'.Linked := by
  induction hc with
  | refl => exact h
  | tail _ hstep ih => exact ih.change hstep

end Linked

end TypeGraft.Harvest
