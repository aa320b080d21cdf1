import TypeGraft.Files.World
import TypeGraft.Proofs.Digraph.Order
import TypeGraft.Proofs.Resolution.Session
import TypeGraft.Proofs.Splice.Merge

/-!
# The block stands on its own

All that a declaration of the block names is in the block too, or stays in its place in the entry
script, and what is in the block comes before the declarations that name it
(`TypeGraft.Harvest.selfContained_of_searchAndSplice`).

The block is taken from the order of the graph of uses (`TypeGraft.Digraph.successorsFirst`), in
which an interface uses all that its bases use. So what has to be shown is that there is an edge
from a declaration to all that its text names: an edge that was noted when the reference was
resolved (`TypeGraft.Harvest.Linked`), or one that is inherited from a base whose members were
merged in (`TypeGraft.Harvest.path_of_mem_ancestors`).
-/

namespace TypeGraft

namespace Harvest

/-! ### What the block shows -/

/-- **An entry declaration that stays in its place.** -/
def InPlace (s : Harvest) (orders : Orders) (clean : Cleaning) (key : Key) : Prop :=
  ∃ e, s.graft? key = some e ∧ s.stays orders e.declaration = true ∧
    key ∉ s.idleInterfaces orders clean

/-- A reference that is bound to a declaration, and not left out. -/
def Binds (s : Harvest) (r : Reference) (key : Key) : Prop :=
  r.target = some key ∧ ∀ d, s.declaration? key = some d → s.leavesOut r d = false

/-- **A reference that shows in the text of a declaration**: it is one of its own, or one of a
declaration that is merged into it. The bases that have members do not show, since they are merged
or their circle was broken. -/
def Shows (s : Harvest) (key : Key) (r : Reference) : Prop :=
  ∃ owner, r.owner = some owner ∧ (owner = key ∨ owner ∈ s.ancestors key) ∧
    ¬(r.kind = .extends_ ∧ r.target.any s.hasMembers = true)

/-- **A block that stands on its own.** -/
structure SelfContained (s : Harvest) (orders : Orders) (clean : Cleaning) : Prop where
  /-- No declaration is written twice. -/
  once : (s.blockKeys orders).Nodup
  /-- What was asked for is in the block or in its place. -/
  requested : ∀ ref ∈ s.roots, ∀ key, s.targetOf ref = some key →
    key ∈ s.blockKeys orders ∨ s.InPlace orders clean key
  /-- What a declaration of the block names is in the block or in its place. -/
  closed : ∀ key ∈ s.blockKeys orders, ∀ ref r used, s.reference? ref = some r → s.Shows key r →
    s.Binds r used → used ∈ s.blockKeys orders ∨ s.InPlace orders clean used
  /-- It comes before the declaration, unless it depends on that one in turn. -/
  ordered : ∀ key ∈ s.blockKeys orders, ∀ ref r used, s.reference? ref = some r → s.Shows key r →
    s.Binds r used → used ∈ s.blockKeys orders → used ≠ key →
      ¬s.usesWithInherited.Path used key → [used, key].Sublist (s.blockKeys orders)

variable {s : Harvest} {orders : Orders} {clean : Cleaning}

theorem of_mem_blockKeys {key : Key} (hkey : key ∈ s.blockKeys orders) :
    key ∈ orders.blockOrder ∧ (s.graft? key).isSome := by
  obtain ⟨horder, hkept⟩ := List.mem_filter.mp hkey
  refine ⟨horder, ?_⟩
  cases hgraft : s.graft? key with
  | none => rw [hgraft] at hkept; exact absurd hkept (by simp)
  | some e => rfl

/-- What is in the order is in the block or in its place. -/
theorem placed {key : Key} (horder : key ∈ orders.blockOrder) (hgraft : (s.graft? key).isSome) :
    key ∈ s.blockKeys orders ∨ s.InPlace orders clean key := by
  obtain ⟨e, he⟩ := Option.isSome_iff_exists.mp hgraft
  cases hstays : s.stays orders e.declaration with
  | false =>
    refine Or.inl (List.mem_filter.mpr ⟨horder, ?_⟩)
    rw [he]
    dsimp only
    rw [hstays]
    rfl
  | true =>
    refine Or.inr ⟨e, he, hstays, ?_⟩
    intro hidle
    -- an interface is idle only if nothing in the order needs it
    unfold idleInterfaces at hidle
    split at hidle
    · exact List.not_mem_nil hidle
    · obtain ⟨⟨key', e'⟩, hmem, rfl⟩ := List.mem_map.mp hidle
      have hidle := (List.mem_filter.mp hmem).2
      simp [horder] at hidle

theorem mem_requestedKeys_iff {key : Key} :
    key ∈ s.requestedKeys ↔ ∃ ref ∈ s.roots, s.targetOf ref = some key :=
  mem_distinct.trans List.mem_filterMap

/-! ### What the orders come from -/

/-- **What is left when the circles are broken**: the edges of all references that are bound,
save those to bases with members. -/
structure Arranged (s : Harvest) (orders : Orders) : Prop where
  dependencies : s.dependencies.WellFormed
  inherits : s.inherits.WellFormed
  nodes : ∀ key, key ∈ s.dependencies.nodes ↔ (s.graft? key).isSome
  rooted : s.Rooted
  bound : ∀ ref r key, s.reference? ref = some r → s.Binds r key → (s.graft? key).isSome ∧
    ∀ owner, r.owner = some owner → ¬(r.kind = .extends_ ∧ s.hasMembers key = true) →
      s.dependencies.Edge owner key
  blockOrder : orders.blockOrder = s.usesWithInherited.successorsFirst s.requestedKeys

namespace Arranged

variable (h : s.Arranged orders)
include h

theorem mem_blockOrder_iff {key : Key} : key ∈ orders.blockOrder ↔
    ∃ root ∈ s.requestedKeys, root ∈ s.usesWithInherited.nodes ∧
      s.usesWithInherited.Path root key := by
  rw [h.blockOrder]
  exact Digraph.mem_successorsFirst_iff h.dependencies.withInherited

/-- What was asked for was taken in. -/
theorem isSome_graft?_of_requested {key : Key} (hkey : key ∈ s.requestedKeys) :
    (s.graft? key).isSome := by
  obtain ⟨ref, href, htarget⟩ := mem_requestedKeys_iff.mp hkey
  obtain ⟨r, hr, hkey⟩ := Option.bind_eq_some_iff.mp htarget
  obtain ⟨r', hr', -, hnested⟩ := h.rooted.plain ref href
  obtain rfl := Option.some.inj (hr'.symm.trans hr)
  refine (h.bound ref r' key hr ⟨hkey, fun d _ => ?_⟩).1
  rw [leavesOut, hnested]
  rfl

theorem mem_blockOrder_of_requested {key : Key} (hkey : key ∈ s.requestedKeys) :
    key ∈ orders.blockOrder :=
  h.mem_blockOrder_iff.mpr ⟨key, hkey, Digraph.mem_nodes_withInherited
    ((h.nodes key).mpr (h.isSome_graft?_of_requested hkey)), Relation.ReflTransGen.refl⟩

/-- **There is an edge to all that shows** in the text of a declaration, but for the declaration
itself. -/
theorem edge_of_shows {key used : Key} {ref : RefId} {r : Reference}
    (hgraft : (s.graft? key).isSome) (hr : s.reference? ref = some r) (hshows : s.Shows key r)
    (hbinds : s.Binds r used) (hne : used ≠ key) : s.usesWithInherited.Edge key used := by
  obtain ⟨owner, howner, hmerged, hbase⟩ := hshows
  have hmembers : ¬(r.kind = .extends_ ∧ s.hasMembers used = true) := by
    rw [hbinds.1] at hbase
    exact hbase
  have hedge := (h.bound ref r used hr hbinds).2 owner howner hmembers
  rw [usesWithInherited, Digraph.edge_withInherited_iff]
  -- its own references have edges, and those of its bases are inherited
  rcases hmerged with rfl | hancestor
  · exact Or.inl hedge
  · obtain ⟨hpath, hbase⟩ := path_of_mem_ancestors hancestor
    rcases Relation.ReflTransGen.cases_head hpath with rfl | ⟨next, hfirst, -⟩
    · exact absurd rfl hbase
    · exact Or.inr ⟨h.inherits.left key next hfirst, (h.nodes key).mpr hgraft, owner, hpath, hbase,
        hedge, hne⟩

theorem selfContained : s.SelfContained orders clean where
  once := by
    rw [blockKeys, h.blockOrder]
    exact (Digraph.nodup_successorsFirst h.dependencies.withInherited _).filter _
  requested := by
    intro ref href key htarget
    have hkey : key ∈ s.requestedKeys := mem_requestedKeys_iff.mpr ⟨ref, href, htarget⟩
    exact placed (h.mem_blockOrder_of_requested hkey) (h.isSome_graft?_of_requested hkey)
  closed := by
    intro key hkey ref r used hr hshows hbinds
    by_cases hne : used = key
    · exact Or.inl (hne ▸ hkey)
    · obtain ⟨horder, hgraft⟩ := of_mem_blockKeys hkey
      obtain ⟨root, hroot, hnode, hpath⟩ := h.mem_blockOrder_iff.mp horder
      have hedge := h.edge_of_shows hgraft hr hshows hbinds hne
      exact placed (h.mem_blockOrder_iff.mpr ⟨root, hroot, hnode, hpath.tail hedge⟩)
        (h.bound ref r used hr hbinds).1
  ordered := by
    intro key hkey ref r used hr hshows hbinds hused hne hback
    obtain ⟨horder, hgraft⟩ := of_mem_blockKeys hkey
    have hedge := h.edge_of_shows hgraft hr hshows hbinds hne
    have hbefore : [used, key].Sublist orders.blockOrder := by
      rw [h.blockOrder] at horder ⊢
      exact Digraph.sublist_successorsFirst h.dependencies.withInherited horder hedge hback
    have hfilter : List.Sublist (List.filter _ [used, key]) (s.blockKeys orders) :=
      hbefore.filter _
    rw [List.filter_eq_self.mpr] at hfilter
    · exact hfilter
    · intro v hv
      rcases List.mem_pair.mp hv with rfl | rfl
      · exact (List.mem_filter.mp hused).2
      · exact (List.mem_filter.mp hkey).2

end Arranged

/-! ### Runs -/

variable {world : World} {s' : Harvest} {o : Outline} {requests : List RootRequest}
  {external : Bool} {spliced : Splice}

theorem arranged_of_searchAndSplice (hopened : Opened world s o)
    (h : s.searchAndSplice world o requests external clean = (s', .ok (orders, spliced))) :
    s'.Arranged orders := by
  obtain ⟨found, hfound, rfl, hspliced⟩ := exists_search_of_searchAndSplice h
  obtain ⟨-, hchanges⟩ := searching_of_search hopened hfound
  have hlinked := (hopened.unsearched.linked requests external).changes hchanges
  have hrooted := (hopened.unsearched.rooted requests external).changes hchanges
  obtain ⟨⟨grafts, events, rfl⟩, hnames, -⟩ := exists_splice hspliced
  have hkeeps : found.Keeps { found.orders.1 with grafts, events } :=
    ⟨rfl, rfl, rfl, rfl, rfl, rfl, hnames⟩
  refine ⟨hlinked.dependencies, hlinked.inherits.cut _, ?_, ⟨hrooted.root, hrooted.plain⟩, ?_, rfl⟩
  · intro key
    rw [hkeeps.isSome_graft?]
    exact hlinked.nodes key
  · intro ref r key hr hbinds
    rcases hlinked.target ref r key hr hbinds.1 with ⟨d, hd, hout⟩ | ⟨e, he, -, hedge⟩
    · -- a reference that was left out is not bound
      have hkept := hbinds.2 d ((hkeeps.declaration? key).trans hd)
      rw [hkeeps.leavesOut, hout] at hkept
      exact absurd hkept (by simp)
    · obtain ⟨e', he', hd', -⟩ := hkeeps.graft he
      refine ⟨Option.isSome_iff_exists.mpr ⟨e', he'⟩, ?_⟩
      intro owner howner hbase
      have hedge := hedge owner howner
      rw [hasMembers, he', Option.map_some, Option.getD_some, hd'] at hbase
      rw [if_neg hbase] at hedge
      exact hedge

/-- **The block stands on its own.** It is written for a list of declarations, none of them
twice. What was asked for, and all that a declaration of the block names, is in the block or is an
entry declaration that stays in its place. What is in the block comes before the declarations that
name it, unless it depends on them in turn. -/
theorem selfContained_of_searchAndSplice (hopened : Opened world s o)
    (h : s.searchAndSplice world o requests external clean = (s', .ok (orders, spliced))) :
    s'.SelfContained orders clean ∧
    spliced.emitted = (s'.blockKeys orders).map s'.newNameOf ∧
    ∃ own, s'.filledBodies = .ok own ∧
      s'.block (s'.absorbParents orders own).2 (s'.blockKeys orders) = .ok spliced.block := by
  refine ⟨(arranged_of_searchAndSplice hopened h).selfContained, ?_⟩
  obtain ⟨found, -, -, hspliced⟩ := exists_search_of_searchAndSplice h
  exact (exists_splice hspliced).2.2

end Harvest

/-! ### A base that is merged -/

/-- One module beside the script, with an interface and an alias that the interface needs. -/
def World.baseModule : World :=
  World.ofTree ⟨["w"],
    [(["w", "b.ts"],
      Bytes.ofString "export interface B \x7b id: Id \x7d\nexport type Id = string")]⟩ []

/-- A script with an interface that extends the one of the module, and with an alias. -/
def Harvest.Opening.ownBase : Harvest.Opening :=
  .script "/w/App.vue" (Bytes.ofString
    "import \x7b B \x7d from './b'\ntype Own = string\ninterface P extends B \x7b own: Own \x7d")

set_option maxRecDepth 100000 in
/-- The interface shows what its base needs, which is written before it. The alias of the script
stays in its place. -/
theorem Harvest.selfContained_of_searchAndSplice_ownBase :
    ∃ s o s' orders spliced, Opened World.baseModule s o ∧
      s.searchAndSplice World.baseModule o (exportRequests ["P"]) false .none =
        (s', .ok (orders, spliced)) ∧
      spliced.block = "type _INLINE_Id = string;\ninterface P \x7b id: _INLINE_Id; own: Own \x7d" ∧
      s'.blockKeys orders = [⟨"/w/b.ts", "Id"⟩, ⟨"/w/App.vue", "P"⟩] ∧
      s'.SelfContained orders .none := by
  obtain ⟨s, o, s', orders, spliced, hopened, hrun, hexpected⟩ := Harvest.exists_of_splicesTo
    (show Harvest.comesTo World.baseModule .ownBase ["P"] false (fun _ _ found =>
      found.splicesTo .none fun orders s' spliced =>
        spliced.block =
          "type _INLINE_Id = string;\ninterface P \x7b id: _INLINE_Id; own: Own \x7d" ∧
        s'.blockKeys orders = [⟨"/w/b.ts", "Id"⟩, ⟨"/w/App.vue", "P"⟩]) = true by
      decide +kernel)
  obtain ⟨hblock, hkeys⟩ := of_decide_eq_true hexpected
  exact ⟨s, o, s', orders, spliced, hopened, hrun, hblock, hkeys,
    (Harvest.selfContained_of_searchAndSplice hopened hrun).1⟩

end TypeGraft
