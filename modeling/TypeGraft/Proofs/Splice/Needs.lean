import TypeGraft.Proofs.Splice.Block
import TypeGraft.Proofs.Splice.Tables

/-!
# What is needed

What is asked for is *needed*, and so is all that something which is needed uses or extends
(`TypeGraft.Harvest.Needed`).

**A search takes in what is needed**, and nothing else: a declaration is taken in for a reference
that names it and is not left out (`TypeGraft.Harvest.Sought`), and the owner of that reference was
taken in before.

**The block is made of what is needed** when the circles of interfaces are broken: what is asked
for, and what something that is needed uses
(`TypeGraft.Harvest.Arranged.mem_blockOrder_iff_needed`). The two need not agree. To break a circle
is to forget that its interfaces extend each other, so an interface of it may be needed no more.
-/

namespace TypeGraft.Harvest

variable {world : World} {s s' : Harvest} {o : Outline} {q : Query} {found : Found} {key : Key}

/-- **What is needed**: what is asked for, and what something that is needed uses or extends. -/
inductive Needed (s : Harvest) : Key → Prop where
  | requested {key : Key} (h : key ∈ s.requestedKeys) : Needed s key
  | used {owner key : Key} (howner : Needed s owner) (h : s.dependencies.Edge owner key) :
      Needed s key
  | extended {owner key : Key} (howner : Needed s owner) (h : s.inherits.Edge owner key) :
      Needed s key

theorem Needed.mono (h : s.Needed key)
    (hrequested : ∀ k ∈ s.requestedKeys, k ∈ s'.requestedKeys) (hwider : s.Wider s') :
    s'.Needed key := by
  induction h with
  | requested h => exact Needed.requested (hrequested _ h)
  | used _ h ih => exact Needed.used ih (hwider.dependencies _ _ h)
  | extended _ h ih => exact Needed.extended ih (hwider.inherits _ _ h)

theorem Needed.of_path {base : Key} (h : s.Needed key) (hpath : s.inherits.Path key base) :
    s.Needed base := by
  induction hpath with
  | refl => exact h
  | tail _ hedge ih => exact Needed.extended ih hedge

/-! ### Edges are never taken away -/

theorem Wider.trans {s'' : Harvest} (h : s.Wider s') (h' : s'.Wider s'') : s.Wider s'' :=
  ⟨fun u v huv => h'.dependencies u v (h.dependencies u v huv),
    fun u v huv => h'.inherits u v (h.inherits u v huv)⟩

theorem wider_link {ref : RefId} {r : Reference} {e : Graft} (hr : s.reference? ref = some r)
    (he : s.graft? key = some e) : s.Wider (s.link ref key) := by
  cases hopen : r.target with
  | some old =>
    rw [link_of_target hr hopen]
    exact Wider.of_eq rfl rfl
  | none =>
    rcases graphs_link hr he hopen with ⟨-, hdependencies, hinherits⟩ | ⟨owner, -, hgraphs⟩
    · exact Wider.of_eq hdependencies hinherits
    · split at hgraphs
      · obtain ⟨hdependencies, hinherits⟩ := hgraphs
        refine ⟨fun u v huv => hdependencies ▸ huv, fun u v huv => ?_⟩
        rw [hinherits]
        exact Digraph.edge_addEdge_iff.mpr (Or.inl huv)
      · obtain ⟨hdependencies, hinherits⟩ := hgraphs
        refine ⟨fun u v huv => ?_, fun u v huv => hinherits ▸ huv⟩
        rw [hdependencies]
        exact Digraph.edge_addEdge_iff.mpr (Or.inl huv)

theorem Change.wider (hc : Change world s s') : s.Wider s' := by
  cases hc with
  | note | visit | mention | load => exact Wider.of_eq rfl rfl
  | link hr he _ => exact wider_link hr he
  | @leaveOut ref r key d _ _ _ =>
    exact Wider.of_eq (graphs_leaveOut s ref key).1 (graphs_leaveOut s ref key).2
  | takeIn request _ hg =>
    obtain ⟨numbers, -, heq⟩ := exists_takeIn s _ request hg
    rw [heq]
    exact ⟨fun u v huv => Digraph.edge_addNode_iff.mpr huv, fun u v huv => huv⟩

theorem Changes.wider (hc : Changes world s s') : s.Wider s' := by
  induction hc with
  | refl => exact Wider.of_eq rfl rfl
  | tail _ hstep ih => exact ih.trans hstep.wider

theorem Needed.changes (h : s.Needed key) (hc : Changes world s s') : s'.Needed key := by
  refine h.mono (fun k hk => ?_) hc.wider
  obtain ⟨ref, href, htarget⟩ := mem_requestedKeys_iff.mp hk
  exact mem_requestedKeys_iff.mpr ⟨ref, hc.roots ▸ href, hc.targetOf htarget⟩

/-! ### A search takes in what is needed -/

/-- **What was taken in is needed**, and some reference is bound to it. -/
def Sought (s : Harvest) : Prop :=
  ∀ key, (s.graft? key).isSome →
    s.Needed key ∧ ∃ ref r, s.reference? ref = some r ∧ s.Binds r key

/-- What a reference is bound to is needed, if its owner is. -/
theorem Linked.needed (h : s.Linked) (howned : s.Owned) {ref : RefId} {r : Reference}
    (hr : s.reference? ref = some r) (hbinds : s.Binds r key)
    (howner : ∀ owner, r.owner = some owner → s.Needed owner) : s.Needed key := by
  cases hown : r.owner with
  | none =>
    -- only the references of the requests have no owner
    have href : ref ∈ s.roots := by
      by_contra href
      obtain ⟨owner, hsome⟩ := howned ref r hr href
      rw [hown] at hsome
      exact absurd hsome (by simp)
    refine Needed.requested (mem_requestedKeys_iff.mpr ⟨ref, href, ?_⟩)
    rw [targetOf_of_reference? hr]
    exact hbinds.1
  | some owner =>
    rcases h.target ref r key hr hbinds.1 with ⟨d, hd, hleft⟩ | ⟨e, -, -, hedge⟩
    · exact absurd (hleft.symm.trans (hbinds.2 d hd)) (by simp)
    · have hedge := hedge owner hown
      split at hedge
      · exact Needed.extended (howner owner hown) hedge
      · exact Needed.used (howner owner hown) hedge

/-- What was needed and bound stays so. -/
theorem Sought.of_changes (h : s.Sought) (hgrounded : s.Grounded) (hc : Changes world s s')
    (hgraft : (s.graft? key).isSome) :
    s'.Needed key ∧ ∃ ref r, s'.reference? ref = some r ∧ s'.Binds r key := by
  obtain ⟨hneeded, ref, r, hr, htarget, hkept⟩ := h key hgraft
  refine ⟨hneeded.changes hc, ?_⟩
  obtain ⟨r', hr', hg⟩ := hc.reference hr
  refine ⟨ref, r', hr', hg.target key htarget, fun d hd => ?_⟩
  obtain ⟨e, he⟩ := Option.isSome_iff_exists.mp hgraft
  have hd₀ := hgrounded.graft key e he
  obtain rfl := Option.some.inj ((hc.declaration? hd₀).symm.trans hd)
  have hnested : r'.nested = r.nested := congrArg (fun r => r.nested) hg.bare
  rw [hc.leavesOut, leavesOut, hnested]
  exact hkept _ hd₀

/-- **A search takes in what is needed.** -/
theorem sought_of_steps {requests : List RootRequest} {external : Bool} {r : Resolution}
    (hopened : Opened world s o)
    (hsteps : Resolution.Steps world (s.begun o requests external) r) : r.harvest.Sought := by
  have hunsearched := hopened.unsearched
  have hbegun := hunsearched.searching world requests external
  induction hsteps with
  | refl =>
    have hgrafts : s.grafts = [] := congrArg Harvest.grafts hunsearched.eq
    rw [begun_eq hunsearched]
    intro key hgraft
    have hgraft : (s.graft? key).isSome := hgraft
    rw [graft?, hgrafts] at hgraft
    exact absurd hgraft (by simp)
  | @tail r r' hsteps hstep ih =>
    obtain ⟨hsearching, hchanges⟩ := hbegun.steps hsteps
    have hc := (hsearching.steps (Relation.ReflTransGen.single hstep)).2
    have hlinked := (hunsearched.linked requests external).changes hchanges
    have howned := (owned_begun hunsearched requests external).changes hchanges
    intro key hgraft
    cases hbefore : r.harvest.graft? key with
    | some e => exact ih.of_changes hsearching.grounded hc (by rw [hbefore]; rfl)
    | none =>
      obtain ⟨e, he⟩ := Option.isSome_iff_exists.mp hgraft
      obtain ⟨q, x, -, hx, hkept, htarget, -⟩ := hsearching.taken hstep hbefore he
      obtain ⟨x', hx', hg⟩ := hc.reference hx
      have hbinds : r'.harvest.Binds x' key := by
        refine ⟨(targetOf_of_reference? hx').symm.trans htarget, fun d hd => ?_⟩
        obtain rfl :=
          Option.some.inj (((hsearching.grounded.changes hc).graft key e he).symm.trans hd)
        have hnested : x'.nested = x.nested := congrArg (fun x => x.nested) hg.bare
        rw [hc.leavesOut, leavesOut, hnested]
        exact hkept
      refine ⟨(hlinked.changes hc).needed (howned.changes hc) hx' hbinds ?_, q.ref, x', hx', hbinds⟩
      intro owner howner
      -- the owner of the reference was taken in before
      have howner : x.owner = some owner := (congrArg (fun x => x.owner) hg.bare).symm.trans howner
      exact (ih owner (hlinked.owner q.ref x owner hx howner)).1.changes hc

/-! ### The block is made of what is needed -/

section Orders

variable {orders : Orders} {clean : Cleaning} {requests : List RootRequest} {external : Bool}
  {spliced : Splice}

theorem Arranged.mem_nodes_of_mem_blockOrder (h : s.Arranged orders)
    (hkey : key ∈ orders.blockOrder) : key ∈ s.dependencies.nodes := by
  obtain ⟨root, hroot, -, hpath⟩ := h.mem_blockOrder_iff.mp hkey
  rcases Relation.ReflTransGen.cases_tail hpath with rfl | ⟨u, -, hedge⟩
  · exact (h.nodes key).mpr (h.isSome_graft?_of_requested hroot)
  · rcases Digraph.edge_withInherited_iff.mp hedge with hedge | ⟨-, -, b, -, -, hedge, -⟩
    · exact h.dependencies.right u key hedge
    · exact h.dependencies.right b key hedge

/-- The order is closed under what its declarations use, and what those use that they extend. -/
theorem Arranged.mem_blockOrder_of_edge (h : s.Arranged orders) {derived owner : Key}
    (hderived : derived ∈ orders.blockOrder) (hpath : s.inherits.Path derived owner)
    (hedge : s.dependencies.Edge owner key) : key ∈ orders.blockOrder := by
  obtain ⟨root, hroot, hnode, hreach⟩ := h.mem_blockOrder_iff.mp hderived
  have hstep : ∀ {v}, s.usesWithInherited.Edge derived v → v ∈ orders.blockOrder := fun hv =>
    h.mem_blockOrder_iff.mpr ⟨root, hroot, hnode, hreach.tail hv⟩
  rcases Relation.ReflTransGen.cases_head hpath with rfl | ⟨next, hfirst, -⟩
  · exact hstep (Digraph.edge_withInherited_iff.mpr (Or.inl hedge))
  · by_cases hsame : key = derived
    · exact hsame ▸ hderived
    by_cases howner : owner = derived
    · exact hstep (Digraph.edge_withInherited_iff.mpr (Or.inl (howner ▸ hedge)))
    exact hstep (Digraph.edge_withInherited_iff.mpr (Or.inr ⟨h.inherits.left derived next hfirst,
      h.mem_nodes_of_mem_blockOrder hderived, owner, hpath, howner, hedge, hsame⟩))

/-- **What is needed is in the order, or extended** by something that is. -/
theorem Arranged.exists_derived (h : s.Arranged orders) (hneeded : s.Needed key) :
    ∃ derived ∈ orders.blockOrder, s.inherits.Path derived key := by
  induction hneeded with
  | requested hkey => exact ⟨_, h.mem_blockOrder_of_requested hkey, Relation.ReflTransGen.refl⟩
  | used _ hedge ih =>
    obtain ⟨derived, hderived, hpath⟩ := ih
    exact ⟨_, h.mem_blockOrder_of_edge hderived hpath hedge, Relation.ReflTransGen.refl⟩
  | extended _ hedge ih =>
    obtain ⟨derived, hderived, hpath⟩ := ih
    exact ⟨derived, hderived, hpath.tail hedge⟩

/-- **The order lists what is asked for, and what something that is needed uses.** -/
theorem Arranged.mem_blockOrder_iff_needed (h : s.Arranged orders) : key ∈ orders.blockOrder ↔
    key ∈ s.requestedKeys ∨ ∃ owner, s.Needed owner ∧ s.dependencies.Edge owner key := by
  constructor
  · intro hkey
    obtain ⟨root, hroot, -, hpath⟩ := h.mem_blockOrder_iff.mp hkey
    clear hkey
    -- along the edges of the order, one goes from what is needed to what is needed
    have hneeded : ∀ {v}, s.usesWithInherited.Path root v → s.Needed v := by
      intro v hpath
      induction hpath with
      | refl => exact Needed.requested hroot
      | @tail u v _ hedge ih =>
        rcases Digraph.edge_withInherited_iff.mp hedge with hedge | ⟨-, -, b, hup, -, hedge, -⟩
        · exact Needed.used ih hedge
        · exact Needed.used (ih.of_path hup) hedge
    rcases Relation.ReflTransGen.cases_tail hpath with rfl | ⟨u, hpath, hedge⟩
    · exact Or.inl hroot
    · rcases Digraph.edge_withInherited_iff.mp hedge with hedge | ⟨-, -, b, hup, -, hedge, -⟩
      · exact Or.inr ⟨u, hneeded hpath, hedge⟩
      · exact Or.inr ⟨b, (hneeded hpath).of_path hup, hedge⟩
  · rintro (hkey | ⟨owner, howner, hedge⟩)
    · exact h.mem_blockOrder_of_requested hkey
    · obtain ⟨derived, hderived, hpath⟩ := h.exists_derived howner
      exact h.mem_blockOrder_of_edge hderived hpath hedge

/-- **If no circle is broken**, all that was taken in is needed in the end. -/
theorem needed_of_searchAndSplice (hopened : Opened world s o)
    (h : s.searchAndSplice world o requests external clean = (s', .ok (orders, spliced)))
    (hcircles : orders.circles = []) (hgraft : (s'.graft? key).isSome) : s'.Needed key := by
  obtain ⟨found, hfound, rfl, hspliced⟩ := exists_search_of_searchAndSplice h
  obtain ⟨last, hsteps, -, rfl⟩ := exists_steps_of_search hfound
  obtain ⟨⟨grafts, events, rfl⟩, hnames, -⟩ := exists_splice hspliced
  have hkeeps : last.harvest.Keeps { last.harvest.orders.1 with grafts, events } :=
    ⟨rfl, rfl, rfl, rfl, rfl, rfl, hnames⟩
  rw [hkeeps.isSome_graft?] at hgraft
  refine (sought_of_steps hopened hsteps key hgraft).1.mono (fun k hk => hk)
    ⟨fun u v huv => huv, fun u v huv => Digraph.edge_cut_iff.mpr ⟨huv, ?_⟩⟩
  intro circle hcircle
  have hnone : last.harvest.inherits.circles Key.le 1 = [] := hcircles
  rw [hnone] at hcircle
  exact absurd hcircle List.not_mem_nil

end Orders

end TypeGraft.Harvest
