import TypeGraft.Proofs.Harvest.Look
import TypeGraft.Proofs.Harvest.Naming

/-!
# Following the references

What a search knows of its references, and what becomes of them when a name is looked for in a
file.

* `TypeGraft.Harvest.Tracked`: behind every reference that is resolved there is one that found
  the declaration by its own lookup, up to which there is a chain of references that met.
* `TypeGraft.Harvest.Looked`: what becomes of all references when one of them is looked for. The
  one that is looked for is resolved, or goes where the file sends it, and all others that are
  not resolved are left alone.

Whether a reference denotes a declaration (`TypeGraft.Harvest.RefDenotes`) is a question about the
files only; it is the search that has to show that the one it looks for does.
-/

namespace TypeGraft

/-- The place at which the lookup of a reference begins. What requests ask for may be looked
for from outside of the file. -/
def Reference.origin (external : Bool) (r : Reference) : Waypoint :=
  ⟨r.file, r.name, external && r.owner.isNone⟩

theorem Reference.Grows.origin {r r' : Reference} (h : r.Grows r') (external : Bool) :
    r'.origin external = r.origin external := by
  have hbare : r'.bare.origin external = r.bare.origin external := by rw [h.bare]
  exact hbare

namespace Harvest

variable {world : World} {files : String → Option Outline} {external : Bool}
  {s s' : Harvest} {o : Outline} {q : Query} {key : Key}

/-- **What a reference denotes** by its own lookup. -/
def RefDenotes (world : World) (files : String → Option Outline) (external : Bool) (s : Harvest)
    (ref : RefId) (key : Key) : Prop :=
  ∃ r, s.reference? ref = some r ∧ Denotes world files (r.origin external) key

/-- A search goes on: nothing that is known of its names and references is taken back. -/
structure Advances (s s' : Harvest) : Prop where
  synonyms : s.synonyms.Grows s'.synonyms
  reference : ∀ ref r, s.reference? ref = some r →
    ∃ r', s'.reference? ref = some r' ∧ r.Grows r'

namespace Advances

theorem of_changes (hs : s.synonyms.Grows s'.synonyms) (h : Changes world s s') : s.Advances s' :=
  ⟨hs, fun _ _ hr => h.reference hr⟩

theorem targetOf (h : s.Advances s') {ref : RefId} (ht : s.targetOf ref = some key) :
    s'.targetOf ref = some key := by
  obtain ⟨r, hr, hk⟩ := Option.bind_eq_some_iff.mp ht
  obtain ⟨r', hr', hg⟩ := h.reference ref r hr
  rw [targetOf_of_reference? hr']
  exact hg.target key hk

theorem isSome_reference? (h : s.Advances s') {ref : RefId} (hr : (s.reference? ref).isSome) :
    (s'.reference? ref).isSome := by
  obtain ⟨r, hr⟩ := Option.isSome_iff_exists.mp hr
  obtain ⟨r', hr', -⟩ := h.reference ref r hr
  rw [hr']
  rfl

theorem refDenotes (h : s.Advances s') {ref : RefId}
    (hd : s.RefDenotes world files external ref key) :
    s'.RefDenotes world files external ref key := by
  obtain ⟨r, hr, hd⟩ := hd
  obtain ⟨r', hr', hg⟩ := h.reference ref r hr
  refine ⟨r', hr', ?_⟩
  rw [hg.origin]
  exact hd

theorem chained (h : s.Advances s') {finder ref : RefId} (hc : s.Chained key finder ref) :
    s'.Chained key finder ref :=
  hc.mono h.synonyms fun _ _ => h.targetOf

end Advances

/-! ### What is known of the references -/

/-- A reference found the declaration, and from it the declaration was handed on. -/
def Traced (world : World) (files : String → Option Outline) (external : Bool) (s : Harvest)
    (ref : RefId) (key : Key) : Prop :=
  ∃ finder, s.RefDenotes world files external finder key ∧ s.targetOf finder = some key ∧
    s.Chained key finder ref

/-- **Behind every reference that is resolved there is one that found the declaration.** -/
structure Tracked (world : World) (files : String → Option Outline) (external : Bool)
    (s : Harvest) : Prop where
  consistent : s.synonyms.Consistent (Declares files)
  valid : ∀ ref i, i ∈ s.synonyms.trail ref → (s.reference? ref).isSome
  traced : ∀ ref key, s.targetOf ref = some key → s.Traced world files external ref key

theorem Traced.mono (h : s.Advances s') {ref : RefId}
    (ht : s.Traced world files external ref key) : s'.Traced world files external ref key := by
  obtain ⟨finder, hd, htarget, hchain⟩ := ht
  exact ⟨finder, h.refDenotes hd, h.targetOf htarget, h.chained hchain⟩

/-- A search goes on, and what is new can be traced. -/
theorem Tracked.advance (h : s.Tracked world files external) (ha : s.Advances s')
    (hc : s'.synonyms.Consistent (Declares files))
    (hv : ∀ ref i, i ∈ s'.synonyms.trail ref → (s'.reference? ref).isSome)
    (hnew : ∀ ref key, s'.targetOf ref = some key →
      s.targetOf ref = some key ∨ s'.Traced world files external ref key) :
    s'.Tracked world files external := by
  refine ⟨hc, hv, ?_⟩
  intro ref key ht
  rcases hnew ref key ht with hold | hnew
  · exact (h.traced ref key hold).mono ha
  · exact hnew

/-- A change that the search does not see. -/
theorem Tracked.of_search (h : s.Tracked world files external)
    (hr : s'.references = s.references) (hs : s'.synonyms = s.synonyms) :
    s'.Tracked world files external := by
  have href : ∀ ref, s'.reference? ref = s.reference? ref := fun ref => by
    rw [reference?, reference?, hr]
  refine h.advance ⟨by rw [hs]; exact Synonyms.Grows.refl _, fun ref r hr => ⟨r, (href ref).trans
    hr, Reference.Grows.refl r⟩⟩ (by rw [hs]; exact h.consistent) ?_ fun ref key ht => Or.inl ?_
  · intro ref i hi
    rw [hs] at hi
    rw [href]
    exact h.valid ref i hi
  · rw [targetOf, href] at ht
    exact ht

/-- References that are added are not resolved. -/
theorem Tracked.addReferences (h : s.Tracked world files external) {references : List Reference}
    (hopen : ∀ r ∈ references, r.target = none) :
    (s.addReferences references).1.Tracked world files external := by
  have hold : ∀ ref r, s.reference? ref = some r →
      (s.addReferences references).1.reference? ref = some r := fun ref r hr =>
    (List.getElem?_append_left (List.getElem?_eq_some_iff.mp hr).1).trans hr
  have ha : s.Advances (s.addReferences references).1 :=
    ⟨Synonyms.Grows.refl _, fun ref r hr => ⟨r, hold ref r hr, Reference.Grows.refl r⟩⟩
  refine h.advance ha h.consistent (fun ref i hi => ha.isSome_reference? (h.valid ref i hi))
    fun ref key ht => Or.inl ?_
  obtain ⟨r, hr, hk⟩ := Option.bind_eq_some_iff.mp ht
  rcases Nat.lt_or_ge ref s.references.length with hlt | hge
  · have hr₀ : s.reference? ref = some r := (List.getElem?_append_left hlt).symm.trans hr
    rw [targetOf_of_reference? hr₀, hk]
  · have hmem : r ∈ references :=
      List.mem_of_getElem? ((List.getElem?_append_right hge).symm.trans hr)
    rw [hopen r hmem] at hk
    exact absurd hk (by simp)

/-- What a reference found is handed on to those that met it. -/
theorem Tracked.fulfil (h : s.Tracked world files external) {finder : RefId}
    (hf : Fulfilled (Declares files) key finder s s')
    (hd : s.RefDenotes world files external finder key)
    (htarget : s'.targetOf finder = some key) : s'.Tracked world files external := by
  have ha : s.Advances s' := by
    refine ⟨hf.revises.toGrows, ?_⟩
    intro ref r hr
    rcases hf.resolves.reference ref r hr with hr' | ⟨hopen, hr'⟩
    · exact ⟨r, hr', Reference.Grows.refl r⟩
    · exact ⟨_, hr', rfl, fun k hk => by rw [hopen] at hk; exact absurd hk (by simp)⟩
  refine h.advance ha hf.consistent ?_ ?_
  · intro ref i hi
    rw [Synonyms.trail, hf.revises.trails] at hi
    exact ha.isSome_reference? (h.valid ref i hi)
  · intro ref k hk
    rcases hf.resolves.targetOf_eq ref with heq | ⟨hopen, heq⟩
    · exact Or.inl (heq ▸ hk)
    · rw [heq] at hk
      obtain rfl := Option.some.inj hk
      exact Or.inr ⟨finder, ha.refDenotes hd, htarget, hf.chained ref hopen heq⟩

/-! ### Coming to a place -/

theorem reference?_arrive (s : Harvest) (o : Outline) (q : Query) (r : Reference) (ref : RefId) :
    (s.arrive o q r).reference? ref =
      if q.ref = ref then
        (s.reference? ref).map fun r => { r with waypoints := r.waypoints ++ [q.placeIn o] }
      else s.reference? ref :=
  reference?_modifyReference s q.ref ref _

theorem changes_arrive (s : Harvest) (o : Outline) (q : Query) (r : Reference) :
    Changes world s (s.arrive o q r) :=
  (Relation.ReflTransGen.single (Change.visit q.ref (q.placeIn o))).tail
    (Change.note (s.arrival o q r).1 s.events s.reads s.parentRefs)

/-- **A reference that comes to a place** waits there for a name, which leads to the declaration
if there is one at the place. -/
structure Arrived (world : World) (files : String → Option Outline) (external : Bool)
    (s : Harvest) (o : Outline) (q : Query) (r : Reference) : Prop where
  tracked : (s.arrive o q r).Tracked world files external
  waits : (s.arrive o q r).synonyms.Waits q.ref (s.arrival o q r).2
  trail : (s.arrival o q r).2 ∈ (s.arrive o q r).synonyms.trail q.ref
  settledBut : (s.arrive o q r).synonyms.SettledBut (Declares files) (s.arrival o q r).2
  settled : (∀ k, ¬Declares files (q.placeIn o) k) →
    (s.arrive o q r).synonyms.Settled (Declares files)
  leads : ∀ k, Declares files (q.placeIn o) k →
    (s.arrive o q r).synonyms.Leads (Declares files) k (s.arrival o q r).2

theorem arrived_arrive (h : s.Tracked world files external)
    (hs : s.synonyms.Settled (Declares files)) {r : Reference} (hr : s.Fresh o q r) :
    Arrived world files external s o q r := by
  obtain ⟨b, id, harrival, hgrows, hc, hw, htrail, hothers, hbut, hsettled, hleads⟩ :=
    Synonyms.exists_wait h.consistent q.ref (q.placeIn o) (shownLine o q.name r)
  have hb : (s.arrive o q r).synonyms = b := congrArg Prod.fst harrival
  have hid : (s.arrival o q r).2 = id := congrArg Prod.snd harrival
  have hchanges : Changes world s (s.arrive o q r) := changes_arrive s o q r
  have ha : s.Advances (s.arrive o q r) := Advances.of_changes (by rw [hb]; exact hgrows) hchanges
  refine ⟨h.advance ha (by rw [hb]; exact hc) ?_ fun ref k hk => Or.inl ?_,
    by rw [hb, hid]; exact hw, by rw [hb, hid]; exact htrail, by rw [hb, hid]; exact hbut hs,
    fun hn => by rw [hb]; exact hsettled hs hn, ?_⟩
  · intro ref i hi
    by_cases href : ref = q.ref
    · rw [href]
      exact ha.isSome_reference? (by rw [hr.reference]; rfl)
    · rw [hb, hothers ref href] at hi
      exact ha.isSome_reference? (h.valid ref i hi)
  · rw [targetOf, reference?_arrive] at hk
    split at hk
    · rw [targetOf]
      cases hr₀ : s.reference? ref with
      | none => rw [hr₀] at hk; exact absurd hk (by simp)
      | some r₀ => rw [hr₀] at hk; exact hk
    · exact hk
  · intro k hk
    rw [hb, hid]
    exact hleads k hk fun k' hk' => hk'.unique hk

/-! ### Taking in a declaration -/

/-- The harvest with a declaration taken in, before any reference is resolved to it. -/
def tookIn (s : Harvest) (d : Declaration) (request : Option String) : Harvest :=
  if d.isInterface then
    { (s.takeIn d request).1 with parentRefs := (s.takeIn d request).1.parentRefs.put d.key [] }
  else (s.takeIn d request).1

/-- **What taking in a declaration adds**, and where. -/
theorem exists_tookIn (s : Harvest) (d : Declaration) (request : Option String)
    (hg : s.graft? d.key = none) : ∃ nextNumbers takenNames, s.tookIn d request = { s with
      nextNumbers
      takenNames
      grafts := s.grafts ++ [(d.key, ⟨d, (s.nameFor d request).2, [], []⟩)]
      dependencies := s.dependencies.addNode d.key
      parentRefs := if d.isInterface then s.parentRefs.put d.key [] else s.parentRefs } := by
  obtain ⟨numbers, -, heq⟩ := exists_takeIn s d request hg
  refine ⟨numbers, (s.takeIn d request).1.takenNames, ?_⟩
  unfold tookIn
  rw [heq]
  split <;> rfl

/-- The references of what a declaration mentions. -/
def mentioned (o : Outline) (d : Declaration) : List Reference :=
  (d.freeMentions o.source).map fun m =>
    Reference.ofMention d.key (Outline.lineAt o.source m.span.start) m

/-- The names that are to be looked for, when the references are numbered from some number on. -/
def asked (o : Outline) (d : Declaration) (first : Nat) : List Query :=
  ((d.freeMentions o.source).zip ((List.range (mentioned o d).length).map (first + ·))).map
    fun m => ⟨m.2, m.1.name, false⟩

/-- **Taking in a declaration**: it is named, then what waits for it is resolved, and then the
names that it mentions are to be looked for. -/
theorem exists_meet (s : Harvest) (o : Outline) (d : Declaration) (record : SynonymId)
    (request : Option String) :
    ∃ parentRefs, s.meet o d record request =
      ({ (((s.tookIn d request).fulfil record d.key).addReferences (mentioned o d)).1 with
          parentRefs },
        asked o d ((s.tookIn d request).fulfil record d.key).references.length) := by
  let found := (s.tookIn d request).fulfil record d.key
  let after := (found.addReferences (mentioned o d)).1
  let bases := (((d.freeMentions o.source).zip (found.addReferences (mentioned o d)).2).filter
    fun m => m.1.kind == .extends_).map (·.2)
  have hmeet : s.meet o d record request =
      (if bases.isEmpty then after
        else { after with parentRefs := after.parentRefs.adjust (· ++ bases) d.key },
        asked o d found.references.length) := rfl
  rw [hmeet]
  split
  · exact ⟨after.parentRefs, rfl⟩
  · exact ⟨after.parentRefs.adjust (· ++ bases) d.key, rfl⟩

theorem search_tookIn (s : Harvest) (d : Declaration) (request : Option String)
    (hg : s.graft? d.key = none) : (s.tookIn d request).references = s.references ∧
      (s.tookIn d request).synonyms = s.synonyms := by
  obtain ⟨_, _, heq⟩ := exists_tookIn s d request hg
  rw [heq]
  exact ⟨rfl, rfl⟩

theorem graft?_tookIn {d : Declaration} (request : Option String) (hg : s.graft? d.key = none)
    (key : Key) : (s.tookIn d request).graft? key =
      if d.key = key then some ⟨d, (s.nameFor d request).2, [], []⟩ else s.graft? key := by
  rw [← graft?_takeIn request hg]
  unfold tookIn
  split <;> rfl

theorem changes_tookIn {d : Declaration} (request : Option String)
    (hd : s.declaration? d.key = some d) (hg : s.graft? d.key = none) :
    Changes world s (s.tookIn d request) ∧ ((s.tookIn d request).graft? d.key).isSome := by
  have htake : Change world s (s.takeIn d request).1 := Change.takeIn request hd hg
  refine ⟨?_, by rw [graft?_tookIn request hg, if_pos rfl]; rfl⟩
  unfold tookIn
  split
  · exact (Relation.ReflTransGen.single htake).tail (Change.note _ _ _ _)
  · exact Relation.ReflTransGen.single htake

theorem kind_of_mem_ofType {source : Bytes} {kind : MentionKind} {type : Syntax.Node} {m : Mention}
    (h : m ∈ Mention.ofType source kind type) : m.kind = kind := by
  obtain ⟨node, -, rfl⟩ := List.mem_map.mp h
  rfl

theorem kind_of_mem_ofBlock {source : Bytes} {block : Syntax.Node} {m : Mention}
    (h : m ∈ Mention.ofBlock source block) : m.kind = .property := by
  obtain ⟨type, -, hm⟩ := List.mem_flatMap.mp h
  split at hm
  · rw [List.mem_singleton.mp hm]
    rfl
  · exact kind_of_mem_ofType hm

/-- What a declaration mentions is never mentioned in a request. -/
theorem kind_ne_root {d : Declaration} {r : Reference} (h : r ∈ mentioned o d) :
    r.kind ≠ .root := by
  have hbase : ∀ (source : Bytes) (base : Heritage),
      ∀ m ∈ Mention.ofBase source base, m.kind = .extends_ ∨ m.kind = .member := by
    intro source base m hm
    rcases List.mem_cons.mp hm with rfl | hm
    · exact Or.inl rfl
    · obtain ⟨arguments, -, hm⟩ := List.mem_flatMap.mp hm
      exact Or.inr (kind_of_mem_ofType hm)
  -- one case for each shape of a declaration
  obtain ⟨m, hm, rfl⟩ := List.mem_map.mp h
  have hm : m ∈ d.mentions o.source := (List.mem_filter.mp hm).1
  change m.kind ≠ .root
  unfold Declaration.mentions at hm
  split at hm
  · split at hm
    · rw [kind_of_mem_ofBlock hm]
      simp
    · rw [kind_of_mem_ofType hm]
      simp
  · rcases List.mem_append.mp hm with hm | hm
    · obtain ⟨base, -, hm⟩ := List.mem_flatMap.mp hm
      rcases hbase _ _ m hm with hkind | hkind
      · rw [hkind]
        simp
      · rw [hkind]
        simp
    · rw [kind_of_mem_ofBlock hm]
      simp
  · exact absurd hm List.not_mem_nil

/-- The names that are asked for are those that the references mention. -/
theorem mem_asked_iff {d : Declaration} {first : Nat} {query : Query} :
    query ∈ asked o d first ↔ ∃ i r, (mentioned o d)[i]? = some r ∧
      query = ⟨first + i, r.name, false⟩ := by
  have hlength : (mentioned o d).length = (d.freeMentions o.source).length := List.length_map _
  have hget : ∀ i, i < (mentioned o d).length →
      ((List.range (mentioned o d).length).map (first + ·))[i]? = some (first + i) := by
    intro i hi
    rw [List.getElem?_map, List.getElem?_range hi]
    rfl
  rw [asked, List.mem_map]
  constructor
  · rintro ⟨⟨m, ref⟩, hmem, rfl⟩
    obtain ⟨i, hi⟩ := List.mem_iff_getElem?.mp hmem
    obtain ⟨hm, href⟩ := List.getElem?_zip_eq_some.mp hi
    have hlt : i < (mentioned o d).length := by
      rw [hlength]
      exact (List.getElem?_eq_some_iff.mp hm).1
    rw [hget i hlt] at href
    refine ⟨i, _, by rw [mentioned, List.getElem?_map, hm]; rfl, ?_⟩
    rw [← Option.some.inj href]
    rfl
  · rintro ⟨i, r, hr, rfl⟩
    rw [mentioned, List.getElem?_map] at hr
    obtain ⟨m, hm, rfl⟩ := Option.map_eq_some_iff.mp hr
    have hlt : i < (mentioned o d).length := by
      rw [hlength]
      exact (List.getElem?_eq_some_iff.mp hm).1
    exact ⟨(m, first + i),
      List.mem_of_getElem? (List.getElem?_zip_eq_some.mpr ⟨hm, hget i hlt⟩), rfl⟩

theorem map_ref_asked (d : Declaration) (first : Nat) :
    (asked o d first).map (·.ref) = (List.range (mentioned o d).length).map (first + ·) := by
  have hlength : (mentioned o d).length = (d.freeMentions o.source).length := List.length_map _
  have hcomp : ((fun query : Query => query.ref) ∘ fun m : Mention × RefId =>
      (⟨m.2, m.1.name, false⟩ : Query)) = Prod.snd := rfl
  rw [asked, List.map_map, hcomp, List.map_snd_zip]
  exact Nat.le_of_eq (by rw [List.length_map, List.length_range, hlength])

theorem nodup_asked (d : Declaration) (first : Nat) :
    ((asked o d first).map (·.ref)).Nodup := by
  rw [map_ref_asked]
  exact List.nodup_range.map fun _ _ h => Nat.add_left_cancel h

end Harvest

/-- The names that are to be looked for in the same file. -/
def Found.queries : Found → List Query
  | .declared mentioned => mentioned
  | _ => []

/-- A reference goes where the file sends it, because nothing is declared there. -/
inductive Found.Follows : Found → Answer → Prop where
  | elsewhere (binding : Binding) : Follows (.elsewhere binding) (.elsewhere binding)
  | starred : Follows .starred .starred
  | unknown : Follows .settled .unknown

theorem Found.Follows.queries {found : Found} {answer : Answer} (h : found.Follows answer) :
    found.queries = [] := by
  cases h <;> rfl

namespace Harvest

variable {world : World} {files : String → Option Outline} {external : Bool}
  {s s' : Harvest} {o : Outline} {q : Query} {found : Found}

/-- **What becomes of all references** when one of them is looked for in a file. -/
structure Looked (world : World) (files : String → Option Outline) (external : Bool)
    (s : Harvest) (o : Outline) (q : Query) (s' : Harvest) (found : Found) : Prop where
  changes : Changes world s s'
  tracked : s'.Tracked world files external
  settled : s'.synonyms.Settled (Declares files)
  starred : found = .starred → q.external = true
  length : s.references.length ≤ s'.references.length
  own : ∀ r', s'.reference? q.ref = some r' → r'.target = none →
    (s.reference? q.ref = some r' ∧ q.placeIn o ∈ r'.waypoints ∧ found = .settled) ∨
    ∃ r, s.Fresh o q r ∧ r' = { r with waypoints := r.waypoints ++ [q.placeIn o] } ∧
      found.Follows (o.answer q.name q.external)
  others : ∀ ref r', ref ≠ q.ref → s'.reference? ref = some r' → r'.target = none →
    s.reference? ref = some r' ∨
    ∃ query ∈ found.queries, query.ref = ref ∧ r'.waypoints = [] ∧
      r'.origin external = query.placeIn o
  /-- What is taken in is what the reference asks for, and not left out for it. -/
  taken : ∀ key e, s.graft? key = none → s'.graft? key = some e → ∃ r, s.Fresh o q r ∧
    s.leavesOut r e.declaration = false ∧ s'.targetOf q.ref = some key ∧
    s.Named e.declaration (requestOf r) e.newName
  nodup : (found.queries.map (·.ref)).Nodup
  bound : ∀ query ∈ found.queries,
    s.references.length ≤ query.ref ∧ query.ref < s'.references.length

/-- Where what was found is kept, nothing is taken in. -/
theorem Keeps.not_taken (h : s.Keeps s') {P : Key → Graft → Prop} :
    ∀ key e, s.graft? key = none → s'.graft? key = some e → P key e := by
  intro key e hnew he
  obtain ⟨e', he', -⟩ := h.symm.graft he
  rw [hnew] at he'
  exact absurd he' (by simp)

theorem looked_passed (ht : s.Tracked world files external)
    (hs : s.synonyms.Settled (Declares files)) (h : ∀ r, ¬s.Fresh o q r) :
    Looked world files external s o q s .settled := by
  refine ⟨Relation.ReflTransGen.refl, ht, hs, fun h => absurd h (by simp), Nat.le_refl _,
    fun r' hr' hopen => Or.inl ⟨hr', ?_, rfl⟩, fun ref r' _ hr' _ => Or.inl hr',
    (Keeps.refl s).not_taken, List.nodup_nil, by simp [Found.queries]⟩
  by_contra hunseen
  exact h r' ⟨hr', hopen, hunseen⟩

/-- A reference that is sent elsewhere. -/
theorem looked_arrive {r : Reference} (events : List Event)
    (ha : Arrived world files external s o q r) (hfiles : files o.path = some o)
    (hr : s.Fresh o q r) (hfollows : found.Follows (o.answer q.name q.external)) :
    Looked world files external s o q { s.arrive o q r with events } found := by
  -- a file that sends a name elsewhere does not declare it
  have hdeclares : ∀ k, ¬Declares files (q.placeIn o) k := by
    rintro k ⟨o', d, ho', hd, -⟩
    obtain rfl : o = o' := Option.some.inj (hfiles.symm.trans ho')
    rw [show o.answer (q.placeIn o).name (q.placeIn o).external = o.answer q.name q.external
      from rfl] at hd
    rw [hd] at hfollows
    cases hfollows
  have hqueries : found.queries = [] := hfollows.queries
  have hlength : (s.arrive o q r).references.length = s.references.length :=
    List.length_modify _ _ _
  refine ⟨(changes_arrive s o q r).tail (Change.note _ _ _ _), ha.tracked.of_search rfl rfl,
    ha.settled hdeclares, ?_, Nat.le_of_eq hlength.symm, ?_,
    fun ref r' href hr' _ => Or.inl ?_, Keeps.not_taken ⟨rfl, rfl, rfl, rfl, rfl, rfl, rfl⟩,
    by rw [hqueries]; exact List.nodup_nil, by rw [hqueries]; simp⟩
  · intro hstarred
    subst hstarred
    generalize hanswer : o.answer q.name q.external = answer at hfollows
    cases hfollows
    exact Outline.external_of_starred hanswer
  · intro r' hr' _
    refine Or.inr ⟨r, hr, ?_, hfollows⟩
    have harrive := reference?_arrive s o q r q.ref
    rw [if_pos rfl, hr.reference] at harrive
    exact Option.some.inj (hr'.symm.trans harrive)
  · have harrive := reference?_arrive s o q r ref
    rw [if_neg fun h => href h.symm] at harrive
    exact harrive.symm.trans hr'

/-- Of the references that are not resolved, only the one that came to the place has changed. -/
theorem reference?_of_resolves_arrive {r r' : Reference} {key : Key} {s₁ : Harvest}
    (hres : (s.arrive o q r).Resolves key s₁) {ref : RefId} (href : ref ≠ q.ref)
    (hr' : s₁.reference? ref = some r') (hopen : r'.target = none) :
    s.reference? ref = some r' := by
  have harrive := reference?_arrive s o q r ref
  rw [if_neg fun h => href h.symm] at harrive
  have hold : ∃ r₀, (s.arrive o q r).reference? ref = some r₀ := by
    refine Option.isSome_iff_exists.mp (hres.isSome_reference?.mp ?_)
    rw [hr']
    rfl
  obtain ⟨r₀, hr₀⟩ := hold
  rcases hres.reference ref r₀ hr₀ with hr₁ | ⟨-, hr₁⟩
  · rw [← harrive, hr₀, ← hr₁, hr']
  · rw [hr'] at hr₁
    rw [Option.some.inj hr₁] at hopen
    exact absurd hopen (by simp)

/-- A reference that found a declaration is resolved, and so are some that it met. -/
theorem looked_resolved {r : Reference} {key : Key} {s₁ : Harvest}
    (hchanges : Changes world s s₁) (hkeeps : (s.arrive o q r).Keeps s₁)
    (ht : s₁.Tracked world files external)
    (hs : s₁.synonyms.Settled (Declares files)) (hres : (s.arrive o q r).Resolves key s₁)
    (hown : s₁.targetOf q.ref = some key) :
    Looked world files external s o q s₁ .settled := by
  have hlength : s₁.references.length = s.references.length :=
    hres.length.trans (List.length_modify _ _ _)
  refine ⟨hchanges, ht, hs, fun h => absurd h (by simp), Nat.le_of_eq hlength.symm,
    fun r' hr' hopen => ?_,
    fun ref r' href hr' hopen => Or.inl (reference?_of_resolves_arrive hres href hr' hopen),
    hkeeps.not_taken, List.nodup_nil, by simp [Found.queries]⟩
  rw [targetOf_of_reference? hr', hopen] at hown
  exact absurd hown (by simp)

theorem keeps_giveUp (s : Harvest) (ref : RefId) (key : Key) : s.Keeps (s.giveUp ref key) :=
  (keeps_leaveOut s ref key).trans ⟨rfl, rfl, rfl, rfl, rfl, rfl, rfl⟩

/-- Giving a reference a declaration whose members are left out. -/
theorem tracked_giveUp {ref : RefId} {key : Key} {id : SynonymId}
    (ht : s.Tracked world files external) (hchanges : Changes world s (s.leaveOut ref key))
    (hs : s.synonyms.SettledBut (Declares files) id) (htrail : id ∈ s.synonyms.trail ref)
    (hd : s.RefDenotes world files external ref key) (hopen : s.targetOf ref = none) :
    Changes world s (s.giveUp ref key) ∧ (s.giveUp ref key).Tracked world files external ∧
      (s.giveUp ref key).synonyms.Settled (Declares files) ∧ s.Resolves key (s.giveUp ref key) ∧
      (s.giveUp ref key).targetOf ref = some key := by
  have hdel := delivered_leaveOut s key ref
  have hvalid : (s.reference? ref).isSome := by
    obtain ⟨r, hr, -⟩ := hd
    rw [hr]
    rfl
  have hown : (s.giveUp ref key).targetOf ref = some key := hdel.resolved hvalid hopen
  have hgiveUp : Changes world s (s.giveUp ref key) := hchanges.tail (Change.note _ _ _ _)
  have hsynonyms : (s.giveUp ref key).synonyms = s.synonyms.settle ref key :=
    congrArg (fun a => Synonyms.settle a ref key) hdel.synonyms
  obtain ⟨hrev, hcons, hset⟩ := Synonyms.revises_settle ht.consistent ref key
  rw [← hsynonyms] at hrev hcons hset
  have ha : s.Advances (s.giveUp ref key) := Advances.of_changes hrev.toGrows hgiveUp
  refine ⟨hgiveUp, ht.advance ha hcons ?_ ?_,
    hrev.settled hs fun record hrecord => hset id htrail record hrecord,
    hdel.resolves.trans (Resolves.of_references rfl), hown⟩
  · intro i j hj
    rw [Synonyms.trail, hrev.trails] at hj
    exact ha.isSome_reference? (ht.valid i j hj)
  · intro i k hk
    by_cases hi : i = ref
    · subst hi
      obtain rfl : key = k := Option.some.inj (hown.symm.trans hk)
      exact Or.inr ⟨i, ha.refDenotes hd, hown, Relation.ReflTransGen.refl⟩
    · exact Or.inl ((hdel.others i hi).symm.trans hk)

/-- What is new when a declaration was taken in is the declaration, under a name that may be
chosen for it. -/
theorem taken_meet {r : Reference} {d : Declaration} {record : SynonymId}
    {request : Option String} {key : Key} {e : Graft} (hg : s.graft? d.key = none)
    (hnew : s.graft? key = none)
    (he : ((s.arrive o q r).meet o d record request).1.graft? key = some e) :
    d.key = key ∧ e.declaration = d ∧ s.Named e.declaration request e.newName := by
  obtain ⟨parentRefs, hmeet⟩ := exists_meet (s.arrive o q r) o d record request
  rw [hmeet] at he
  have hfulfil := keeps_fulfil ((s.arrive o q r).tookIn d request) record d.key
  obtain ⟨e₀, he₀, hd, hn⟩ := hfulfil.symm.graft he
  have hg : (s.arrive o q r).graft? d.key = none := hg
  rw [graft?_tookIn request hg] at he₀
  split at he₀
  · next hkey =>
    obtain rfl := Option.some.inj he₀
    refine ⟨hkey, hd.symm, ?_⟩
    rw [← hd, ← hn]
    have hkeeps : s.Keeps (s.arrive o q r) := ⟨rfl, rfl, rfl, rfl, rfl, rfl, rfl⟩
    exact hkeeps.named (named_nameFor _ d request)
  · exact absurd (hnew.symm.trans he₀) (by simp)

/-- **A declaration that is taken in** is what the reference that found it is resolved to, and
others that waited for it. -/
theorem tracked_fulfil_tookIn {r : Reference} {d : Declaration} {filled : Harvest}
    (heq : ((s.arrive o q r).tookIn d (requestOf r)).fulfil (s.arrival o q r).2 d.key = filled)
    (hgrounded : s.Grounded) (ha : Arrived world files external s o q r)
    (hdeclares : Declares files (q.placeIn o) d.key) (hd : s.declaration? d.key = some d)
    (hg : s.graft? d.key = none)
    (hden : (s.arrive o q r).RefDenotes world files external q.ref d.key)
    (hopen : (s.arrive o q r).targetOf q.ref = none) :
    Changes world s filled ∧ filled.Tracked world files external ∧
      filled.synonyms.Settled (Declares files) ∧ (s.arrive o q r).Resolves d.key filled ∧
      filled.targetOf q.ref = some d.key ∧ (filled.graft? d.key).isSome := by
  have harrive : Changes world s (s.arrive o q r) := changes_arrive s o q r
  obtain ⟨htook, hgraft⟩ :
      Changes world (s.arrive o q r) ((s.arrive o q r).tookIn d (requestOf r)) ∧
      (((s.arrive o q r).tookIn d (requestOf r)).graft? d.key).isSome :=
    changes_tookIn (requestOf r) hd hg
  obtain ⟨hreferences, hsynonyms⟩ := search_tookIn (s.arrive o q r) d (requestOf r) hg
  have htracked := ha.tracked.of_search hreferences hsynonyms
  -- taking in a declaration resolves nothing by itself
  have htarget : ((s.arrive o q r).tookIn d (requestOf r)).targetOf q.ref = none := by
    rw [targetOf, reference?, hreferences]
    exact hopen
  have hden' : ((s.arrive o q r).tookIn d (requestOf r)).RefDenotes world files external q.ref
      d.key := by
    obtain ⟨r₀, hr₀, hd₀⟩ := hden
    exact ⟨r₀, by rw [reference?, hreferences]; exact hr₀, hd₀⟩
  obtain ⟨hch, hful, hown⟩ := fulfilled_fulfil world ((hgrounded.changes harrive).changes htook)
    hgraft htracked.consistent htracked.valid (by rw [hsynonyms]; exact ha.settledBut)
    (by rw [hsynonyms]; exact ha.leads d.key hdeclares)
    (by rw [hsynonyms]; exact ha.trail) (by rw [hsynonyms]; exact ha.waits) htarget
  rw [heq] at hch hful hown
  exact ⟨(harrive.trans htook).trans hch, htracked.fulfil hful hden' hown, hful.settled,
    Resolves.trans (Resolves.of_references hreferences) hful.resolves, hown,
    hch.isSome_graft? hgraft⟩

/-- Nothing is known yet of the references in a declaration. -/
theorem of_mem_mentioned {d : Declaration} {m : Reference} (hm : m ∈ mentioned o d) :
    m.target = none ∧ m.waypoints = [] ∧ m.owner = some d.key ∧ m.file = d.key.file := by
  obtain ⟨mention, -, rfl⟩ := List.mem_map.mp hm
  exact ⟨rfl, rfl, rfl, rfl⟩

/-- **Taking in a declaration** resolves the reference that found it, and adds the references
of what the declaration mentions. -/
theorem looked_meet {r : Reference} {d : Declaration} (hgrounded : s.Grounded)
    (hr : s.Fresh o q r)
    (ha : Arrived world files external s o q r) (hfiles : files o.path = some o)
    (hanswer : o.answer q.name q.external = .declared d)
    (hd : s.declaration? d.key = some d) (hpath : d.key.file = o.path)
    (hl : s.leavesOut r d = false) (hg : s.graft? d.key = none)
    (hden : (s.arrive o q r).RefDenotes world files external q.ref d.key)
    (hopen : (s.arrive o q r).targetOf q.ref = none) :
    Looked world files external s o q
      ((s.arrive o q r).meet o d (s.arrival o q r).2 (requestOf r)).1
      (.declared ((s.arrive o q r).meet o d (s.arrival o q r).2 (requestOf r)).2) := by
  obtain ⟨parentRefs, hmeet⟩ :=
    exists_meet (s.arrive o q r) o d (s.arrival o q r).2 (requestOf r)
  let filled := ((s.arrive o q r).tookIn d (requestOf r)).fulfil (s.arrival o q r).2 d.key
  obtain ⟨hch, htracked, hsettled, hres, hown, hgraft⟩ := tracked_fulfil_tookIn
    (show _ = filled from rfl) hgrounded ha ⟨o, d, hfiles, hanswer, rfl⟩ hd hg hden hopen
  have hlength : filled.references.length = s.references.length :=
    hres.length.trans (List.length_modify _ _ _)
  have hmention : Change world filled (filled.addReferences (mentioned o d)).1 :=
    Change.mention fun m hm => ⟨(of_mem_mentioned hm).1, kind_ne_root hm, d.key,
      (of_mem_mentioned hm).2.2.1, hgraft⟩
  rw [hmeet]
  have hown' : ({ (filled.addReferences (mentioned o d)).1 with parentRefs } : Harvest).targetOf
      q.ref = some d.key := by
    obtain ⟨r₁, hr₁, hk⟩ := Option.bind_eq_some_iff.mp hown
    have hkeep : (filled.references ++ mentioned o d)[q.ref]? = some r₁ :=
      (List.getElem?_append_left (List.getElem?_eq_some_iff.mp hr₁).1).trans hr₁
    exact (targetOf_of_reference? (show ({ (filled.addReferences (mentioned o d)).1 with
      parentRefs } : Harvest).reference? q.ref = some r₁ from hkeep)).trans hk
  refine ⟨hch.trans ((Relation.ReflTransGen.single hmention).tail (Change.note _ _ _ parentRefs)),
    (htracked.addReferences fun m hm => (of_mem_mentioned hm).1).of_search rfl rfl, hsettled, fun h
    => absurd h (by simp), ?_, ?_, ?_, ?_, nodup_asked d _, ?_⟩
  · change s.references.length ≤ (filled.references ++ mentioned o d).length
    rw [List.length_append, hlength]
    omega
  · -- the reference that found the declaration is resolved
    intro r' hr' hopen'
    have hnone := targetOf_of_reference? hr'
    rw [hopen'] at hnone
    exact absurd (hown'.symm.trans hnone) (by simp)
  · intro ref r' href hr' hopen'
    have hr' : (filled.references ++ mentioned o d)[ref]? = some r' := hr'
    -- a reference that was there before, or one of the declaration
    rcases Nat.lt_or_ge ref filled.references.length with hlt | hge
    · refine Or.inl (reference?_of_resolves_arrive hres href ?_ hopen')
      exact (List.getElem?_append_left hlt).symm.trans hr'
    · rw [List.getElem?_append_right hge] at hr'
      obtain ⟨-, hwaypoints, howner, hfile⟩ := of_mem_mentioned (List.mem_of_getElem? hr')
      refine Or.inr ⟨⟨filled.references.length + (ref - filled.references.length), r'.name, false⟩,
        mem_asked_iff.mpr ⟨_, r', hr', rfl⟩, Nat.add_sub_of_le hge, hwaypoints, ?_⟩
      rw [Reference.origin, howner, hfile, hpath, Option.isNone_some, Bool.and_false]
      rfl
  · intro key e hnew he
    rw [← hmeet] at he
    obtain ⟨rfl, rfl, hnamed⟩ := taken_meet hg hnew he
    exact ⟨r, hr, hl, hown', hnamed⟩
  · intro query hquery
    obtain ⟨i, m, hm, rfl⟩ := mem_asked_iff.mp hquery
    have hi := (List.getElem?_eq_some_iff.mp hm).1
    constructor
    · rw [← hlength]
      exact Nat.le_add_right _ _
    · change filled.references.length + i < (filled.references ++ mentioned o d).length
      rw [List.length_append]
      exact Nat.add_lt_add_left hi _

/-- **Looking for a name** does to the references what it is meant to do. -/
theorem looked_of_looks (h : Looks s o q s' found) (ht : s.Tracked world files external)
    (hs : s.synonyms.Settled (Declares files)) (hgrounded : s.Grounded)
    (hfile : s.files.get? o.path = some o) (hfiles : files o.path = some o)
    (hfind : ∀ r d, s.Fresh o q r → o.answer q.name q.external = .declared d →
      Denotes world files (r.origin external) d.key) :
    Looked world files external s o q s' found := by
  have hdeclaration : ∀ d, o.answer q.name q.external = .declared d →
      s.declaration? d.key = some d ∧ d.key.file = o.path := by
    intro d hd
    obtain ⟨own, hown⟩ := Outline.exists_get?_of_answer hd
    rw [(hgrounded.outline _ o hfile).2 own d hown, declaration?, hfile]
    exact ⟨hown, rfl⟩
  -- the reference that is looked for is not resolved yet when it has come to the place
  have hreference : ∀ r, s.Fresh o q r → (s.arrive o q r).reference? q.ref =
      some { r with waypoints := r.waypoints ++ [q.placeIn o] } := by
    intro r hr
    rw [reference?_arrive, if_pos rfl, hr.reference]
    rfl
  have hopen : ∀ r, s.Fresh o q r → (s.arrive o q r).targetOf q.ref = none := fun r hr =>
    (targetOf_of_reference? (hreference r hr)).trans hr.unresolved
  have hden : ∀ r d, s.Fresh o q r → o.answer q.name q.external = .declared d →
      (s.arrive o q r).RefDenotes world files external q.ref d.key :=
    fun r d hr hd => ⟨_, hreference r hr, hfind r d hr hd⟩
  cases h with
  | passed h => exact looked_passed ht hs h
  | elsewhere hr ha =>
    exact looked_arrive _ (arrived_arrive ht hs hr) hfiles hr (by rw [ha]; exact .elsewhere _)
  | starred hr ha =>
    exact looked_arrive _ (arrived_arrive ht hs hr) hfiles hr (by rw [ha]; exact .starred)
  | unknown hr ha =>
    exact looked_arrive _ (arrived_arrive ht hs hr) hfiles hr (by rw [ha]; exact .unknown)
  | @leftOut r d hr ha hl =>
    have harrived := arrived_arrive ht hs hr
    have hleave : Change world (s.arrive o q r) ((s.arrive o q r).leaveOut q.ref d.key) :=
      Change.leaveOut (hreference r hr) (hdeclaration d ha).1 hl
    obtain ⟨hch, htracked, hsettled, hres, hown⟩ := tracked_giveUp harrived.tracked
      (Relation.ReflTransGen.single hleave) harrived.settledBut harrived.trail (hden r d hr ha)
      (hopen r hr)
    exact looked_resolved ((changes_arrive s o q r).trans hch) (keeps_giveUp _ _ _) htracked
      hsettled hres hown
  | @again r d hr ha hl hg =>
    have harrived := arrived_arrive ht hs hr
    have hchanges : Changes world s (s.arrive o q r) := changes_arrive s o q r
    obtain ⟨hch, hful, htarget⟩ := fulfilled_fulfil world (hgrounded.changes hchanges)
      (hchanges.isSome_graft? hg) harrived.tracked.consistent harrived.tracked.valid
      harrived.settledBut (harrived.leads d.key ⟨o, d, hfiles, ha, rfl⟩) harrived.trail
      harrived.waits (hopen r hr)
    exact looked_resolved (hchanges.trans hch) (keeps_fulfil _ _ _)
      (harrived.tracked.fulfil hful (hden r d hr ha) htarget) hful.settled hful.resolves htarget
  | @first r d hr ha hl hg =>
    exact looked_meet hgrounded hr (arrived_arrive ht hs hr) hfiles ha (hdeclaration d ha).1
      (hdeclaration d ha).2 hl hg (hden r d hr ha) (hopen r hr)

end Harvest

end TypeGraft
