import TypeGraft.Proofs.Harvest.Linked
import TypeGraft.Proofs.Harvest.Visits
import TypeGraft.Splice.Block

/-!
# The bases of an interface and their references

Beside each interface that was taken in stands a list of references, one for each type that it
extends, in the order in which it names them (`TypeGraft.Harvest.Clauses`). So pairing the two, as
`TypeGraft.Harvest.heritages` does, loses no base and mixes none up.

The list is made where the declaration is taken in: of all that it mentions, the references of its
bases are picked out (`TypeGraft.Harvest.forall₂_basesFrom`). Nothing is added to it later, and
references stay the mentions that they are.
-/

namespace TypeGraft

/-- The mention of a base by its name. -/
def Heritage.mention (base : Heritage) : Mention := ⟨base.name, base.slot, .extends_, false⟩

/-- **Of all mentions in a declaration**, those of bases are the names of what it extends. -/
theorem Declaration.filter_freeMentions (d : Declaration) (source : Bytes) :
    (d.freeMentions source).filter (fun m => m.kind == .extends_) =
      d.bases.map Heritage.mention := by
  have hother : ∀ mentions : List Mention, (∀ m ∈ mentions, m.kind ≠ .extends_) →
      mentions.filter (fun m => m.kind == .extends_) = [] := by
    intro mentions h
    refine List.filter_eq_nil_iff.mpr fun m hm => ?_
    rw [beq_iff_eq]
    exact h m hm
  have hproperty : ∀ block, (Mention.ofBlock source block).filter (fun m => m.kind == .extends_) =
      [] := fun block => hother _ fun m hm => by rw [Harvest.kind_of_mem_ofBlock hm]; simp
  have hmember : ∀ type, (Mention.ofType source .member type).filter
      (fun m => m.kind == .extends_) = [] := fun type =>
    hother _ fun m hm => by rw [Harvest.kind_of_mem_ofType hm]; simp
  -- a base is mentioned by its name, and then by what stands in its type arguments
  have hbase : ∀ base : Heritage, (Mention.ofBase source base).filter
      (fun m => m.kind == .extends_) = [base.mention] := by
    intro base
    rw [Mention.ofBase, List.filter_cons_of_pos rfl, List.filter_flatMap]
    refine congrArg (base.mention :: ·) (List.flatMap_eq_nil_iff.mpr fun type _ => hmember type)
  have hfree : (d.freeMentions source).filter (fun m => m.kind == .extends_) =
      (d.mentions source).filter (fun m => m.kind == .extends_) := by
    rw [freeMentions, List.filter_filter]
    refine List.filter_congr fun m _ => ?_
    cases m.kind == .extends_ <;> simp
  rw [hfree]
  unfold mentions bases
  generalize d.shape = shape
  split
  · split
    · exact hproperty _
    · exact hmember _
  · rw [List.filter_append, hproperty, List.append_nil, List.filter_flatMap]
    simp only [hbase]
    exact List.map_eq_flatMap.symm
  · rfl

namespace Harvest

variable {world : World} {s s' : Harvest} {o : Outline} {q : Query} {found : Found}

/-! ### The references of the bases -/

/-- A reference that is the mention of a base. -/
def MentionsBase (mentions : List Reference) (owner : Key) (base : Heritage) (ref : RefId) : Prop :=
  ∃ line, mentions[ref]? = some (Reference.ofMention owner line base.mention)

/-- **One reference for each base**, in the order in which they are named. -/
theorem forall₂_basesFrom (o : Outline) (d : Declaration) (before : List Reference) :
    List.Forall₂ (MentionsBase (before ++ mentioned o d) d.key) d.bases
      (basesFrom o d before.length) := by
  let refs := (List.range (mentioned o d).length).map (before.length + ·)
  let numbered := (d.freeMentions o.source).zip refs
  let pairs := numbered.filter fun m => m.1.kind == .extends_
  have hlength : (d.freeMentions o.source).length ≤ refs.length := by
    rw [List.length_map, List.length_range, mentioned, List.length_map]
  have hnames : pairs.map Prod.fst = d.bases.map Heritage.mention := by
    rw [← d.filter_freeMentions o.source, ← List.map_fst_zip hlength, List.filter_map]
    rfl
  have hmention : ∀ p ∈ pairs, ∃ line,
      (before ++ mentioned o d)[p.2]? = some (Reference.ofMention d.key line p.1) := by
    intro p hp
    obtain ⟨i, hi⟩ := List.mem_iff_getElem?.mp (List.mem_filter.mp hp).1
    obtain ⟨hm, href⟩ := List.getElem?_zip_eq_some.mp hi
    rw [List.getElem?_map] at href
    obtain ⟨n, hn, href⟩ := Option.map_eq_some_iff.mp href
    obtain ⟨hlt, hn⟩ := List.getElem?_eq_some_iff.mp hn
    rw [List.getElem_range] at hn
    refine ⟨Outline.lineAt o.source p.1.span.start, ?_⟩
    rw [← href, ← hn, List.getElem?_append_right (Nat.le_add_right _ _),
      Nat.add_sub_cancel_left, mentioned, List.getElem?_map, hm]
    rfl
  have hpairs : List.Forall₂ (fun (p : Mention × RefId) (base : Heritage) => p.1 = base.mention)
      pairs d.bases := by
    have heq : List.Forall₂ (· = ·) (pairs.map Prod.fst) (d.bases.map Heritage.mention) := by
      rw [List.forall₂_eq_eq_eq]
      exact hnames
    rwa [List.forall₂_map_left_iff, List.forall₂_map_right_iff] at heq
  have hboth := (List.forall₂_and_left pairs d.bases).mpr ⟨hmention, hpairs⟩
  change List.Forall₂ _ d.bases (pairs.map Prod.snd)
  rw [List.forall₂_map_right_iff]
  refine List.Forall₂.flip (hboth.imp ?_)
  rintro p base ⟨⟨line, hline⟩, hname⟩
  rw [hname] at hline
  exact ⟨line, hline⟩

/-- Each mention of a base is among them. -/
theorem mem_basesFrom {d : Declaration} {i : Nat} {r : Reference}
    (hr : (mentioned o d)[i]? = some r) (hkind : r.kind = .extends_) (first : Nat) :
    first + i ∈ basesFrom o d first := by
  have hlt := (List.getElem?_eq_some_iff.mp hr).1
  rw [mentioned, List.getElem?_map] at hr
  obtain ⟨m, hm, rfl⟩ := Option.map_eq_some_iff.mp hr
  have hnumber : ((List.range (mentioned o d).length).map (first + ·))[i]? = some (first + i) := by
    rw [List.getElem?_map, List.getElem?_range hlt]
    rfl
  have hpair : (m, first + i) ∈ (d.freeMentions o.source).zip
      ((List.range (mentioned o d).length).map (first + ·)) :=
    List.mem_of_getElem? (List.getElem?_zip_eq_some.mpr ⟨hm, hnumber⟩)
  exact List.mem_map.mpr ⟨_, List.mem_filter.mpr ⟨hpair, beq_iff_eq.mpr hkind⟩, rfl⟩

/-- **The bases of what was taken in have their references**, and there are no others. -/
structure Clauses (s : Harvest) : Prop where
  bases : ∀ key e, s.graft? key = some e →
    List.Forall₂ (MentionsBase s.mentions key) e.declaration.bases
      ((s.parentRefs.get? key).getD [])
  fresh : ∀ key, s.graft? key = none → s.parentRefs.get? key = none
  listed : ∀ ref r owner, s.mentions[ref]? = some r → r.owner = some owner → r.kind = .extends_ →
    ref ∈ (s.parentRefs.get? owner).getD []

theorem get?_withBases (parentRefs : Table Key (List RefId)) (o : Outline) (d : Declaration)
    (first : Nat) {key : Key} (hkey : d.key ≠ key) :
    (withBases parentRefs o d first).get? key = parentRefs.get? key := by
  have hnoted : (if d.isInterface then parentRefs.put d.key [] else parentRefs).get? key =
      parentRefs.get? key := by
    split
    · exact Table.get?_put_of_ne _ _ hkey
    · rfl
  unfold withBases
  dsimp only
  split
  · exact hnoted
  · rw [Table.get?_adjust, if_neg hkey, hnoted]

/-- Where a declaration is taken in, its bases get their references. -/
theorem get?_withBases_self {parentRefs : Table Key (List RefId)} {d : Declaration}
    (hnew : parentRefs.get? d.key = none) (o : Outline) (first : Nat) :
    ((withBases parentRefs o d first).get? d.key).getD [] = basesFrom o d first := by
  have hbases : d.isInterface = false → basesFrom o d first = [] := by
    intro hother
    have hnone : d.bases = [] := by
      unfold Declaration.isInterface at hother
      unfold Declaration.bases
      generalize d.shape = shape at hother ⊢
      cases shape <;> first | rfl | exact absurd hother (by simp)
    have hall := forall₂_basesFrom o d (List.replicate first (Reference.ofRequest "" "" none 0))
    rw [hnone, List.length_replicate, List.forall₂_nil_left_iff] at hall
    exact hall
  unfold withBases
  dsimp only
  cases hinterface : d.isInterface with
  | false =>
    rw [hbases hinterface]
    simp [hnew]
  | true =>
    rw [if_pos rfl]
    split
    · next hempty =>
      rw [Table.get?_put_self, List.isEmpty_iff.mp hempty]
      rfl
    · rw [Table.get?_adjust, if_pos rfl, Table.get?_put_self]
      rfl

/-- **A look into a file** keeps the references of the bases in their places. -/
theorem Clauses.records (h : s.Clauses) (hr : Records s o q s' found) : s'.Clauses := by
  have hgraft : ∀ {key : Key} {e : Graft}, s'.graft? key = some e →
      s'.names.get? key = some (e.declaration, e.newName) := by
    intro key e he
    rw [get?_names, he]
    rfl
  cases hr with
  | nothing => exact h
  | visit _ hkeeps _ hmentions hparents =>
    refine ⟨fun key e' he' => ?_, fun key hkey => ?_, by rw [hmentions, hparents]; exact h.listed⟩
    · obtain ⟨e, he, hd, -⟩ := hkeeps.symm.graft he'
      rw [hmentions, hparents, ← hd]
      exact h.bases key e he
    · rw [hparents]
      refine h.fresh key (Option.not_isSome_iff_eq_none.mp ?_)
      rw [← hkeeps.isSome_graft?, hkey]
      simp
  | @walk _ _ d _ newName _ _ hg _ hnames _ hmentions hparents =>
    have hnone : s.names.get? d.key = none := by
      rw [get?_names, hg]
      rfl
    have hput : s'.names = s.names.put d.key (d, newName) :=
      hnames.trans (Table.put_eq_append _ hnone).symm
    have hlength : s.references.length = s.mentions.length := (List.length_map _).symm
    rw [hlength] at hparents
    refine ⟨fun key e' he' => ?_, fun key hkey => ?_, fun ref r owner href howner hkind => ?_⟩
    · have hget := hgraft he'
      rw [hput, Table.get?_put] at hget
      rw [hmentions, hparents]
      by_cases hkey : d.key = key
      · subst hkey
        rw [if_pos rfl] at hget
        rw [← (Prod.mk.inj (Option.some.inj hget)).1, get?_withBases_self (h.fresh d.key hg)]
        exact forall₂_basesFrom o d s.mentions
      · rw [if_neg hkey, get?_names] at hget
        obtain ⟨e, he, heq⟩ := Option.map_eq_some_iff.mp hget
        rw [get?_withBases _ _ _ _ hkey, ← (Prod.mk.inj heq).1]
        refine (h.bases key e he).imp ?_
        rintro base ref ⟨line, hline⟩
        exact ⟨line, (List.getElem?_append_left (List.getElem?_eq_some_iff.mp hline).1).trans hline⟩
    · have hget : s'.names.get? key = none := by
        rw [get?_names, hkey]
        rfl
      rw [hput, Table.get?_put] at hget
      split at hget
      · exact absurd hget (by simp)
      · next hother =>
        rw [hparents, get?_withBases _ _ _ _ hother]
        refine h.fresh key ?_
        rw [get?_names] at hget
        exact Option.map_eq_none_iff.mp hget
    · rw [hmentions] at href
      rw [hparents]
      rcases Nat.lt_or_ge ref s.mentions.length with hlt | hge
      · rw [List.getElem?_append_left hlt] at href
        have hold := h.listed ref r owner href howner hkind
        -- what is new had no references before
        have hne : d.key ≠ owner := by
          rintro rfl
          rw [h.fresh d.key hg] at hold
          exact absurd hold List.not_mem_nil
        rw [get?_withBases _ _ _ _ hne]
        exact hold
      · rw [List.getElem?_append_right hge] at href
        have hsame : d.key = owner := Option.some.inj
          ((of_mem_mentioned (List.mem_of_getElem? href)).2.2.1.symm.trans howner)
        rw [← hsame, get?_withBases_self (h.fresh d.key hg)]
        have hmem := mem_basesFrom href hkind s.mentions.length
        rwa [Nat.add_sub_of_le hge] at hmem

/-- A harvest with the same declarations and records. -/
theorem Clauses.of_eq (h : s.Clauses) (hnames : s'.names = s.names)
    (hmentions : s'.mentions = s.mentions) (hparents : s'.parentRefs = s.parentRefs) :
    s'.Clauses := by
  have hget : ∀ key, (s'.graft? key).map (fun e => (e.declaration, e.newName)) =
      (s.graft? key).map fun e => (e.declaration, e.newName) := by
    intro key
    rw [← get?_names, hnames, get?_names]
  refine ⟨fun key e' he' => ?_, fun key hkey => ?_, by rw [hmentions, hparents]; exact h.listed⟩
  · have hsame := hget key
    rw [he'] at hsame
    obtain ⟨e, he, heq⟩ := Option.map_eq_some_iff.mp hsame.symm
    rw [hmentions, hparents, ← (Prod.mk.inj heq).1]
    exact h.bases key e he
  · have hsame := hget key
    rw [hkey] at hsame
    rw [hparents]
    exact h.fresh key (Option.map_eq_none_iff.mp hsame.symm)

/-- The reference beside a base is the one that its owner names it with. -/
def NamesBase (s : Harvest) (owner : Key) (clause : Heritage × RefId) : Prop :=
  ∃ r, s.reference? clause.2 = some r ∧ r.owner = some owner ∧ r.kind = .extends_ ∧
    r.nested = false ∧ r.name = clause.1.name ∧ r.span = some clause.1.slot

/-- **Each base stands beside its reference**, and no base is lost. -/
theorem Clauses.heritages (h : s.Clauses) {key : Key} {e : Graft} (he : s.graft? key = some e)
    (hkey : e.declaration.key = key) :
    (s.heritages e.declaration).map Prod.fst = e.declaration.bases ∧
      ∀ clause ∈ s.heritages e.declaration, s.NamesBase key clause := by
  have hbases := h.bases key e he
  have hpairs : s.heritages e.declaration =
      e.declaration.bases.zip ((s.parentRefs.get? key).getD []) := by
    rw [Harvest.heritages, hkey]
  rw [hpairs]
  refine ⟨List.map_fst_zip hbases.length_eq.le, ?_⟩
  rintro ⟨base, ref⟩ hc
  obtain ⟨line, hline⟩ := List.forall₂_zip hbases hc
  rw [mentions, List.getElem?_map] at hline
  obtain ⟨r, hr, hbare⟩ := Option.map_eq_some_iff.mp hline
  refine ⟨r, hr, ?_⟩
  -- what a reference mentions is all that its bare form tells
  refine ⟨congrArg (fun r => r.owner) hbare, congrArg (fun r => r.kind) hbare,
    congrArg (fun r => r.nested) hbare, congrArg (fun r => r.name) hbare,
    congrArg (fun r => r.span) hbare⟩

/-- **Each mention of a base stands beside it.** -/
theorem Clauses.exists_heritage (h : s.Clauses) {owner : Key} {e : Graft}
    (he : s.graft? owner = some e) (hkey : e.declaration.key = owner) {ref : RefId} {r : Reference}
    (hr : s.reference? ref = some r) (howner : r.owner = some owner) (hkind : r.kind = .extends_) :
    ∃ heritage, (heritage, ref) ∈ s.heritages e.declaration ∧ heritage.name = r.name ∧
      r.span = some heritage.slot := by
  have hbare : s.mentions[ref]? = some r.bare := by
    rw [mentions, List.getElem?_map, show s.references[ref]? = some r from hr]
    rfl
  have hlisted := h.listed ref r.bare owner hbare howner hkind
  obtain ⟨i, hi⟩ := List.mem_iff_getElem?.mp hlisted
  have hlength := (h.bases owner e he).length_eq
  have hlt : i < e.declaration.bases.length := by
    rw [hlength]
    exact (List.getElem?_eq_some_iff.mp hi).1
  have hmem : (e.declaration.bases[i], ref) ∈ s.heritages e.declaration := by
    rw [Harvest.heritages, hkey]
    exact List.mem_of_getElem?
      (List.getElem?_zip_eq_some.mpr ⟨List.getElem?_eq_getElem hlt, hi⟩)
  obtain ⟨r', hr', -, -, -, hname, hspan⟩ := (h.heritages he hkey).2 _ hmem
  obtain rfl := Option.some.inj (hr'.symm.trans hr)
  exact ⟨_, hmem, hname.symm, hspan⟩

/-! ### What is inherited -/

/-- **Only what has members is inherited from**, and by what names it as its base. -/
def InheritsMembers (s : Harvest) : Prop :=
  ∀ u v, s.inherits.Edge u v → s.hasMembers v = true ∧
    ∃ ref r, s.reference? ref = some r ∧ r.owner = some u ∧ r.kind = .extends_ ∧ r.target = some v

theorem Change.hasMembers (hc : Change world s s') {key : Key} (h : s.hasMembers key = true) :
    s'.hasMembers key = true := by
  rw [Harvest.hasMembers] at h ⊢
  cases he : s.graft? key with
  | none =>
    rw [he] at h
    exact absurd h (by simp)
  | some e =>
    obtain ⟨e', he', hd, -⟩ := hc.graft he
    rw [he] at h
    rw [he', Option.map_some, hd]
    exact h

theorem InheritsMembers.change (h : s.InheritsMembers) (hc : Change world s s') :
    s'.InheritsMembers := by
  have hold : ∀ u v, s.inherits.Edge u v → s'.hasMembers v = true ∧ ∃ ref r,
      s'.reference? ref = some r ∧ r.owner = some u ∧ r.kind = .extends_ ∧ r.target = some v := by
    intro u v hedge
    obtain ⟨hmembers, ref, r, hr, howner, hkind, htarget⟩ := h u v hedge
    obtain ⟨r', hr', hg⟩ := hc.reference hr
    have howner' : r'.owner = r.owner := congrArg (fun r => r.owner) hg.bare
    have hkind' : r'.kind = r.kind := congrArg (fun r => r.kind) hg.bare
    exact ⟨hc.hasMembers hmembers, ref, r', hr', howner'.trans howner, hkind'.trans hkind,
      hg.target v htarget⟩
  have hsame : s'.inherits = s.inherits → s'.InheritsMembers := by
    intro heq u v hedge
    rw [heq] at hedge
    exact hold u v hedge
  have hc' := hc
  cases hc with
  | note | visit | mention | load => exact hsame rfl
  | leaveOut => exact hsame (graphs_leaveOut s _ _).2
  | takeIn request hd hg =>
    obtain ⟨numbers, -, heq⟩ := exists_takeIn s _ request hg
    exact hsame (by rw [heq])
  | @link ref r key e hr he hl =>
    cases htarget : r.target with
    | some old =>
      refine hsame ?_
      rw [link_of_target hr htarget]
    | none =>
      rcases graphs_link hr he htarget with ⟨-, -, heq⟩ | ⟨owner, howner, hgraphs⟩
      · exact hsame heq
      · split at hgraphs
        · next hbase =>
          -- the one edge that is new leads to what was found
          intro u v hedge
          rw [hgraphs.2, Digraph.edge_addEdge_iff] at hedge
          rcases hedge with hedge | ⟨rfl, rfl⟩
          · exact hold u v hedge
          · obtain ⟨r', hr', hg⟩ := hc'.reference hr
            have howner' : r'.owner = r.owner := congrArg (fun r => r.owner) hg.bare
            have hkind' : r'.kind = r.kind := congrArg (fun r => r.kind) hg.bare
            refine ⟨hc'.hasMembers ?_, ref, r', hr', howner'.trans howner, hkind'.trans hbase.1, ?_⟩
            · rw [Harvest.hasMembers, he]
              exact hbase.2
            · rw [← targetOf_of_reference? hr']
              have hsome : (s.graft? v).isSome := by rw [he]; rfl
              exact (delivered_of_references hr (search_link hr hsome).2
                (search_link hr hsome).1).resolved (by rw [hr]; rfl)
                ((targetOf_of_reference? hr).trans htarget)
        · exact hsame hgraphs.2

theorem InheritsMembers.changes (h : s.InheritsMembers) (hc : Changes world s s') :
    s'.InheritsMembers := by
  induction hc with
  | refl => exact h
  | tail _ hstep ih => exact ih.change hstep

end Harvest

end TypeGraft
