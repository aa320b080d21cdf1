import TypeGraft.Proofs.Harvest.Clauses

/-!
# The places of the bases

For every base with members, the harvest keeps the place at which its interface names it. The place
is that of a reference in the list of those of all bases (`TypeGraft.Harvest.Ranked`): a reference
is put in that list before it is resolved, and nothing in front of it is ever added or taken away.

* `TypeGraft.Harvest.Ranked.looks`: a look into a file keeps the places.
* `TypeGraft.Harvest.Owned`: a reference that is not one of a request stands in a declaration that
  was taken in.
-/

namespace TypeGraft.Harvest

variable {world : World} {s s' : Harvest} {o : Outline} {q : Query} {found : Found} {ref : RefId}
  {key : Key}

/-- The references of the bases of an interface. -/
def basesOf (s : Harvest) (owner : Key) : List RefId := (s.parentRefs.get? owner).getD []

/-- **The place that is kept for a base** is that of its reference. -/
def Ranked (s : Harvest) : Prop :=
  ∀ u v, s.inherits.Edge u v → ∃ i ref, s.parentOrder.get? (u, v) = some i ∧
    (s.basesOf u)[i]? = some ref ∧ s.targetOf ref = some v

/-- The reference of each base has its place. -/
def Listed (s : Harvest) : Prop :=
  ∀ ref r owner, s.reference? ref = some r → r.owner = some owner → r.kind = .extends_ →
    ref ∈ s.basesOf owner

theorem Clauses.isListed (h : s.Clauses) : s.Listed := by
  intro ref r owner hr howner hkind
  refine h.listed ref r.bare owner ?_ howner hkind
  rw [mentions, List.getElem?_map, show s.references[ref]? = some r from hr]
  rfl

/-- Two harvests with the same inheritance. -/
structure SameBases (s s' : Harvest) : Prop where
  inherits : s'.inherits = s.inherits
  order : s'.parentOrder = s.parentOrder

/-- **Places stay**, if what is added to the bases comes behind them. -/
theorem Ranked.mono (h : s.Ranked) (hsame : s.SameBases s')
    (hparents : ∀ (u v : Key) (i : Nat) (ref : RefId), s.inherits.Edge u v →
      (s.basesOf u)[i]? = some ref → (s'.basesOf u)[i]? = some ref)
    (htarget : ∀ ref k, s.targetOf ref = some k → s'.targetOf ref = some k) : s'.Ranked := by
  intro u v hedge
  rw [hsame.inherits] at hedge
  obtain ⟨i, ref, hplace, href, hkey⟩ := h u v hedge
  exact ⟨i, ref, by rw [hsame.order, hplace], hparents u v i ref hedge href, htarget ref v hkey⟩

/-! ### Resolving references -/

theorem sameBases_leaveOut (s : Harvest) (ref : RefId) (key : Key) :
    s.SameBases (s.leaveOut ref key) := by
  obtain ⟨_, _, heq⟩ := exists_leaveOut s ref key
  rw [heq]
  exact ⟨rfl, rfl⟩

/-- **Linking a reference** either notes nothing of a base, or it notes the place of the reference
among the bases of its owner. -/
theorem bases_link (s : Harvest) (ref : RefId) (key : Key) :
    s.SameBases (s.link ref key) ∨
      ∃ r owner, s.reference? ref = some r ∧ r.target = none ∧ r.owner = some owner ∧
        r.kind = .extends_ ∧ (s.link ref key).inherits = s.inherits.addEdge owner key ∧
        (s.link ref key).parentOrder =
          s.parentOrder.put (owner, key) ((s.basesOf owner).findIdx (· = ref)) ∧
        (s.link ref key).targetOf ref = some key := by
  generalize hlink : s.link ref key = s'
  cases linking_of_link hlink with
  | idle => exact Or.inl ⟨rfl, rfl⟩
  | @request r e =>
    obtain ⟨rootEdits, heq⟩ := exists_linkRequest (s.resolve ref key) r e.newName
    rw [heq]
    exact Or.inl ⟨rfl, rfl⟩
  | @parent r _ owner hr _ hopen howner hbase =>
    exact Or.inr ⟨r, owner, hr, hopen, howner, hbase.1, rfl, rfl, targetOf_resolve hr⟩
  | @slot r e owner =>
    obtain ⟨grafts, heq⟩ := exists_linkSlot (s.resolve ref key) r owner key e.newName
    rw [heq]
    exact Or.inl ⟨rfl, rfl⟩

theorem Listed.sameRecords (h : s.Listed) (hsame : s.SameRecords s') : s'.Listed := by
  intro ref r' owner hr' howner hkind
  have hbare : s'.mentions[ref]? = some r'.bare := by
    rw [mentions, List.getElem?_map, show s'.references[ref]? = some r' from hr']
    rfl
  rw [hsame.mentions, mentions, List.getElem?_map] at hbare
  obtain ⟨r, hr, hrbare⟩ := Option.map_eq_some_iff.mp hbare
  have howner' : r.owner = r'.owner := congrArg (fun r => r.owner) hrbare
  have hkind' : r.kind = r'.kind := congrArg (fun r => r.kind) hrbare
  rw [basesOf, hsame.parentRefs]
  exact h ref r owner hr (howner'.trans howner) (hkind'.trans hkind)

/-- **Resolving one reference keeps the places.** -/
theorem Ranked.deliver (h : s.Ranked) (hlisted : s.Listed) (d : Declaration) (key : Key)
    (ref : RefId) : (s.deliver d key ref).Ranked := by
  have hparents : ∀ {s₁ : Harvest}, s.SameRecords s₁ → ∀ u, s₁.basesOf u = s.basesOf u := by
    intro s₁ hsame u
    rw [basesOf, hsame.parentRefs]
    rfl
  unfold Harvest.deliver
  cases hr : s.reference? ref with
  | none => exact h
  | some r =>
    dsimp only
    split
    · refine h.mono (sameBases_leaveOut s ref key) ?_
        fun _ _ => (delivered_leaveOut s key ref).resolves.targetOf
      intro u v i ref' _ href
      rw [hparents (sameRecords_leaveOut s ref key)]
      exact href
    · have hresolves : ∀ ref' k, s.targetOf ref' = some k →
          (s.link ref key).targetOf ref' = some k := by
        intro ref' k hk
        cases hg : s.graft? key with
        | none =>
          rw [link_of_none (Or.inr hg)]
          exact hk
        | some e =>
          have hsome : (s.graft? key).isSome := by rw [hg]; rfl
          exact (delivered_of_references hr (search_link hr hsome).2
            (search_link hr hsome).1).resolves.targetOf hk
      rcases bases_link s ref key with hsame | ⟨r', owner, hr', -, howner, hkind, hinherits, horder,
        htarget⟩
      · refine h.mono hsame ?_ hresolves
        intro u v i ref' _ href
        rw [hparents (sameRecords_link s ref key)]
        exact href
      · intro u v hedge
        rw [hinherits, Digraph.edge_addEdge_iff] at hedge
        rw [horder, hparents (sameRecords_link s ref key), Table.get?_put]
        by_cases hnew : (owner, key) = (u, v)
        · obtain ⟨rfl, rfl⟩ := Prod.mk.inj hnew
          -- the reference stands in the list, so it is found there
          have hmem := hlisted ref r' owner hr' howner hkind
          have hlt : (s.basesOf owner).findIdx (· = ref) < (s.basesOf owner).length :=
            List.findIdx_lt_length_of_exists ⟨ref, hmem, by simp⟩
          refine ⟨_, ref, if_pos rfl, ?_, htarget⟩
          rw [List.getElem?_eq_getElem hlt]
          exact congrArg some (of_decide_eq_true (List.findIdx_getElem (w := hlt)))
        · rw [if_neg hnew]
          rcases hedge with hedge | ⟨rfl, rfl⟩
          · obtain ⟨i, ref', hplace, href, hk⟩ := h u v hedge
            exact ⟨i, ref', hplace, href, hresolves ref' v hk⟩
          · exact absurd rfl hnew

/-- **Resolving all that waits for a name keeps the places.** -/
theorem Ranked.fulfil (h : s.Ranked) (hlisted : s.Listed) (id : SynonymId) (key : Key) :
    (s.fulfil id key).Ranked := by
  refine (fulfil_rec (motive := fun s' => s'.Ranked ∧ s'.Listed) ?_ ?_ ⟨h, hlisted⟩).1
  · exact fun _ _ h => ⟨fun u v hedge => h.1 u v hedge, fun ref r owner hr => h.2 ref r owner hr⟩
  · exact fun s₁ d ref h => ⟨h.1.deliver h.2 d key ref,
      h.2.sameRecords (sameRecords_deliver s₁ d key ref)⟩

/-! ### Looking for a name -/

theorem targetOf_arrive (s : Harvest) (o : Outline) (q : Query) (r : Reference) (ref : RefId) :
    (s.arrive o q r).targetOf ref = s.targetOf ref := by
  change ((s.modifyReference q.ref _).reference? ref).bind _ = (s.reference? ref).bind _
  rw [reference?_modifyReference]
  split
  · cases s.reference? ref <;> rfl
  · rfl

/-- Nothing is noted of a base when a declaration is taken in. -/
theorem sameBases_tookIn {d : Declaration} (request : Option String) (hg : s.graft? d.key = none) :
    s.SameBases (s.tookIn d request) := by
  obtain ⟨_, _, heq⟩ := exists_tookIn s d request hg
  rw [heq]
  exact ⟨rfl, rfl⟩

/-- Taking in a declaration makes a list for the references of its own bases, and leaves the lists
of the others as they are. -/
theorem basesOf_tookIn {d : Declaration} (request : Option String) (hg : s.graft? d.key = none)
    (hfresh : s.parentRefs.get? d.key = none) (u : Key) :
    (s.tookIn d request).basesOf u = s.basesOf u := by
  obtain ⟨_, _, heq⟩ := exists_tookIn s d request hg
  rw [heq, basesOf, basesOf]
  dsimp only
  split
  · rw [Table.get?_put]
    split
    · next hu =>
      rw [← hu, hfresh]
      rfl
    · rfl
  · rfl

/-- The places stay while a declaration is taken in. -/
theorem Ranked.meet (h : s.Ranked) (hclauses : s.Clauses) {d : Declaration}
    (hg : s.graft? d.key = none) (record : SynonymId) (request : Option String) :
    (s.meet o d record request).1.Ranked := by
  have hfresh := hclauses.fresh d.key hg
  have hreferences := (search_tookIn s d request hg).1
  have hrefs : ∀ ref, (s.tookIn d request).reference? ref = s.reference? ref := by
    intro ref
    rw [reference?, hreferences]
    rfl
  have htook : (s.tookIn d request).Ranked := by
    refine h.mono (sameBases_tookIn request hg) ?_ ?_
    · intro u v i ref _ href
      rw [basesOf_tookIn request hg hfresh, href]
    · intro ref k hk
      rw [targetOf, hrefs]
      exact hk
  have hlisted : (s.tookIn d request).Listed := by
    intro ref r owner hr howner hkind
    rw [hrefs] at hr
    rw [basesOf_tookIn request hg hfresh]
    exact hclauses.isListed ref r owner hr howner hkind
  have hfilled := htook.fulfil hlisted record d.key
  obtain ⟨parentRefs, hmeet⟩ := exists_meet s o d record request
  have hparents := parentRefs_meet (s := s) (o := o) record request hg
  rw [hmeet] at hparents ⊢
  refine hfilled.mono ⟨rfl, rfl⟩ ?_ ?_
  · intro u v i ref _ href
    rw [basesOf, (sameRecords_fulfil (s.tookIn d request) record d.key).parentRefs] at href
    change ((s.tookIn d request).basesOf u)[i]? = some ref at href
    rw [basesOf_tookIn request hg hfresh] at href
    change ((parentRefs.get? u).getD [])[i]? = some ref
    rw [show parentRefs = withBases s.parentRefs o d s.references.length from hparents]
    -- the references that are new are those of the declaration, which had none before
    have hu : d.key ≠ u := by
      rintro rfl
      rw [basesOf, hfresh] at href
      exact absurd href (by simp)
    rw [get?_withBases _ _ _ _ hu]
    exact href
  · intro ref k hk
    obtain ⟨r, hr, hk⟩ := Option.bind_eq_some_iff.mp hk
    let filled := (s.tookIn d request).fulfil record d.key
    have hr' : (filled.references ++ mentioned o d)[ref]? = some r :=
      (List.getElem?_append_left (List.getElem?_eq_some_iff.mp hr).1).trans hr
    exact Option.bind_eq_some_iff.mpr ⟨r, hr', hk⟩

/-- **A look into a file keeps the places.** -/
theorem Ranked.looks (h : s.Ranked) (hclauses : s.Clauses) (hlooks : Looks s o q s' found) :
    s'.Ranked := by
  have hcame : ∀ r, (s.arrive o q r).Ranked ∧ (s.arrive o q r).Clauses := by
    refine fun r => ⟨?_, hclauses.of_eq rfl (mentions_arrive s o q r) rfl⟩
    exact h.mono ⟨rfl, rfl⟩ (fun _ _ _ _ _ href => href) fun ref k hk =>
      (targetOf_arrive s o q r ref).trans hk
  cases hlooks with
  | passed => exact h
  | elsewhere hr ha | starred hr ha => exact (hcame _).1
  | @unknown r hr ha => exact fun u v hedge => (hcame r).1 u v hedge
  | @leftOut r d hr ha hl =>
    have hsame := sameBases_leaveOut (s.arrive o q r) q.ref d.key
    refine (hcame r).1.mono ⟨hsame.inherits, hsame.order⟩ ?_
      fun _ _ => (delivered_leaveOut (s.arrive o q r) d.key q.ref).resolves.targetOf
    intro u v i ref _ href
    rw [basesOf, show ((s.arrive o q r).giveUp q.ref d.key).parentRefs = _ from
      (sameRecords_leaveOut (s.arrive o q r) q.ref d.key).parentRefs]
    exact href
  | again hr ha hl hg => exact (hcame _).1.fulfil (hcame _).2.isListed _ _
  | first hr ha hl hg => exact (hcame _).1.meet (hcame _).2 hg _ _

/-! ### Where references stand -/

/-- **A reference that is not one of a request stands in a declaration.** -/
def Owned (s : Harvest) : Prop :=
  ∀ ref r, s.reference? ref = some r → ref ∉ s.roots → ∃ owner, r.owner = some owner

theorem Owned.change (h : s.Owned) (hc : Change world s s') : s'.Owned := by
  intro ref r' hr' href
  rw [hc.roots] at href
  rcases hc.of_reference? hr' with ⟨r, hr, hg⟩ | ⟨-, -, owner, howner, -⟩
  · have howner : r'.owner = r.owner := congrArg (fun r => r.owner) hg.bare
    rw [howner]
    exact h ref r hr href
  · exact ⟨owner, howner⟩

theorem Owned.changes (h : s.Owned) (hc : Changes world s s') : s'.Owned := by
  induction hc with
  | refl => exact h
  | tail _ hstep ih => exact ih.change hstep

/-! ### The lists themselves -/

/-- **Each interface that was taken in has a list** for the references of its bases. -/
def HasLists (s : Harvest) : Prop :=
  ∀ key e, s.graft? key = some e → e.declaration.isInterface = true →
    ∃ refs, s.parentRefs.get? key = some refs

theorem exists_get?_withBases (parentRefs : Table Key (List RefId)) (o : Outline) (d : Declaration)
    (first : Nat) (hd : d.isInterface = true) :
    ∃ refs, (withBases parentRefs o d first).get? d.key = some refs := by
  unfold withBases
  rw [if_pos hd]
  dsimp only
  split
  · exact ⟨[], Table.get?_put_self _ _ _⟩
  · rw [Table.get?_adjust, if_pos rfl, Table.get?_put_self]
    exact ⟨_, rfl⟩

theorem HasLists.records (h : s.HasLists) (hr : Records s o q s' found) : s'.HasLists := by
  cases hr with
  | nothing => exact h
  | visit _ hkeeps _ _ hparents =>
    intro key e' he' hd
    obtain ⟨e, he, hdecl, -⟩ := hkeeps.symm.graft he'
    rw [hparents]
    exact h key e he (by rw [hdecl]; exact hd)
  | @walk _ _ d _ newName _ _ hg _ hnames _ _ hparents =>
    intro key e' he' hd
    have hnone : s.names.get? d.key = none := by
      rw [get?_names, hg]
      rfl
    have hget : s'.names.get? key = some (e'.declaration, e'.newName) := by
      rw [get?_names, he']
      rfl
    rw [hnames, ← Table.put_eq_append _ hnone, Table.get?_put] at hget
    rw [hparents]
    split at hget
    · next hkey =>
      subst hkey
      rw [← (Prod.mk.inj (Option.some.inj hget)).1] at hd
      exact exists_get?_withBases _ _ _ _ hd
    · next hkey =>
      rw [get?_names] at hget
      obtain ⟨e, he, heq⟩ := Option.map_eq_some_iff.mp hget
      rw [get?_withBases _ _ _ _ hkey]
      exact h key e he (by rw [(Prod.mk.inj heq).1]; exact hd)

end TypeGraft.Harvest
