import TypeGraft.Proofs.Harvest.Visits

/-!
# Names that stand for themselves

In a search that never leaves its file, a name stands for the declaration of that name or for none.
Then no synonym is absorbed by one of another name, and a reference is resolved to what has its own
name (`TypeGraft.Harvest.Literal`). Nothing of the kind holds where a file passes on a declaration
under another name.

The invariant has one lemma for each operation on the synonyms, and two for the searches that use
them: resolving what waits for a name (`TypeGraft.Harvest.Literal.fulfil`), and looking for a name
in a file (`TypeGraft.Harvest.Literal.looks`).
-/

namespace TypeGraft

namespace Synonyms

variable {a b : Synonyms} {names names' : RefId → Option String} {found found' : Key → Prop}
  {key : Key} {id : SynonymId} {name : String}

/-- A synonym that is a certain name. -/
def Called (a : Synonyms) (id : SynonymId) (name : String) : Prop :=
  ∃ r, a.get? id = some r ∧ r.place.name = name

theorem Called.grows (hc : a.Called id name) (h : a.Grows b) : b.Called id name := by
  obtain ⟨r, hr, rfl⟩ := hc
  obtain ⟨r', hr', hg⟩ := h.record id r hr
  exact ⟨r', hr', congrArg _ hg.place⟩

theorem Called.modify (hc : a.Called id name) {i : SynonymId} {change : Synonym → Synonym}
    (hplace : ∀ r, (change r).place = r.place) : (a.modify i change).Called id name := by
  obtain ⟨r, hr, rfl⟩ := hc
  unfold Called
  rw [get?_modify]
  split
  · exact ⟨change r, by rw [hr]; rfl, congrArg _ (hplace r)⟩
  · exact ⟨r, hr, rfl⟩

/-- **Every name stands for itself**: `names` are the names of the references, and `found` says
what was found. -/
structure Literal (names : RefId → Option String) (found : Key → Prop) (a : Synonyms) : Prop where
  /-- A name is absorbed by the same name. -/
  absorber : ∀ id r into, a.get? id = some r → r.absorbedBy = some into →
    a.Called into r.place.name
  /-- A declaration is represented by its own name. -/
  representative : ∀ slot id, a.representatives.get? slot = some id → a.Called id slot.2.2.name
  /-- What waits for a name has that name. -/
  pending : ∀ id r ref, a.get? id = some r → ref ∈ r.pending → names ref = some r.place.name
  /-- A reference passed only synonyms of its own name. -/
  trail : ∀ ref id, id ∈ a.trail ref → ∃ name, names ref = some name ∧ a.Called id name
  /-- A name stands for a declaration of that name. -/
  target : ∀ id r key, a.get? id = some r → r.target = some key →
    r.place.name = key.name ∧ found key

theorem literal_empty : empty.Literal names found := by
  refine ⟨?_, ?_, ?_, ?_, ?_⟩
  · exact fun id r into h => absurd h (by simp [empty, get?])
  · exact fun slot id h => absurd h (by simp [empty])
  · exact fun id r ref h => absurd h (by simp [empty, get?])
  · exact fun ref id h => absurd h List.not_mem_nil
  · exact fun id r key h => absurd h (by simp [empty, get?])

namespace Literal

/-- More references, and more that was found. -/
theorem mono (h : a.Literal names found) (hnames : ∀ ref name, names ref = some name →
    names' ref = some name) (hfound : ∀ key, found key → found' key) : a.Literal names' found' := by
  refine ⟨h.absorber, h.representative, fun id r ref hr href => hnames ref _ (h.pending id r ref hr
    href), fun ref id hid => ?_, fun id r key hr hkey => ?_⟩
  · obtain ⟨name, hname, hcalled⟩ := h.trail ref id hid
    exact ⟨name, hnames ref name hname, hcalled⟩
  · obtain ⟨hname, hkey⟩ := h.target id r key hr hkey
    exact ⟨hname, hfound key hkey⟩

/-- Changing what is known of a name. -/
theorem modify (h : a.Literal names found) {change : Synonym → Synonym}
    (hplace : ∀ r, (change r).place = r.place)
    (habsorber : ∀ r into, a.get? id = some r → (change r).absorbedBy = some into →
      a.Called into r.place.name)
    (hpending : ∀ r ref, a.get? id = some r → ref ∈ (change r).pending →
      names ref = some r.place.name)
    (htarget : ∀ r key, a.get? id = some r → (change r).target = some key →
      r.place.name = key.name ∧ found key) : (a.modify id change).Literal names found := by
  have hcalled : ∀ {i name}, a.Called i name → (a.modify id change).Called i name :=
    fun hc => hc.modify hplace
  -- a record is an old one, or the one that was changed
  have hcases : ∀ i r', (a.modify id change).get? i = some r' → a.get? i = some r' ∨
      ∃ r, a.get? id = some r ∧ r' = change r := by
    intro i r' hr'
    rw [get?_modify] at hr'
    split at hr'
    · next hi =>
      subst hi
      obtain ⟨r, hr, rfl⟩ := Option.map_eq_some_iff.mp hr'
      exact Or.inr ⟨r, hr, rfl⟩
    · exact Or.inl hr'
  refine ⟨?_, fun slot i hs => hcalled (h.representative slot i hs), ?_, fun ref i hi => ?_, ?_⟩
  · intro i r' into hr' hinto
    rcases hcases i r' hr' with hr | ⟨r, hr, rfl⟩
    · exact hcalled (h.absorber i r' into hr hinto)
    · rw [hplace]
      exact hcalled (habsorber r into hr hinto)
  · intro i r' ref hr' href
    rcases hcases i r' hr' with hr | ⟨r, hr, rfl⟩
    · exact h.pending i r' ref hr href
    · rw [hplace]
      exact hpending r ref hr href
  · obtain ⟨name, hname, hi⟩ := h.trail ref i hi
    exact ⟨name, hname, hcalled hi⟩
  · intro i r' key hr' hkey
    rcases hcases i r' hr' with hr | ⟨r, hr, rfl⟩
    · exact h.target i r' key hr hkey
    · rw [hplace]
      exact htarget r key hr hkey

theorem follow (h : a.Literal names found) {ref : RefId} (href : names ref = some name)
    (hid : a.Called id name) : (a.follow ref id).Literal names found := by
  have hgrows := grows_follow a ref id
  have hget := get?_follow a ref id
  refine ⟨fun i r into hr hinto => ?_, fun slot i hs => ?_, fun i r ref' hr => ?_,
    fun ref' i hi => ?_, fun i r key hr => ?_⟩
  · rw [hget] at hr
    exact (h.absorber i r into hr hinto).grows hgrows
  · rw [representatives_follow] at hs
    exact (h.representative slot i hs).grows hgrows
  · rw [hget] at hr
    exact h.pending i r ref' hr
  · rw [trail_follow] at hi
    have hold : ∀ {ref'}, i ∈ a.trail ref' → ∃ name, names ref' = some name ∧
        (a.follow ref id).Called i name := by
      intro ref' hi
      obtain ⟨name', hname', hcalled⟩ := h.trail ref' i hi
      exact ⟨name', hname', hcalled.grows hgrows⟩
    split at hi
    · next hnew =>
      obtain ⟨rfl, -⟩ := hnew
      rcases List.mem_append.mp hi with hi | hi
      · exact hold hi
      · rw [List.mem_singleton.mp hi]
        exact ⟨name, href, hid.grows hgrows⟩
    · exact hold hi
  · rw [hget] at hr
    exact h.target i r key hr

/-- A record that is made for a place is absorbed by nothing, and nothing waits there. -/
theorem recordAt (h : a.Literal names found) (place : Waypoint) (line : Nat) :
    (a.recordAt place line).1.Literal names found := by
  obtain ⟨b, id₀, r₀, heq, hgrows, htrails, hrep, -, -, hnew⟩ := exists_recordAt a place line
  rw [heq]
  refine ⟨fun i r into hr hinto => ?_, fun slot i hs => ?_, fun i r ref' hr hmem => ?_,
    fun ref' i hi => ?_, fun i r key hr hkey => ?_⟩
  · rcases hnew i r hr with hr | ⟨-, hnone, -⟩
    · exact (h.absorber i r into hr hinto).grows hgrows
    · rw [hnone] at hinto
      exact absurd hinto (by simp)
  · rw [hrep] at hs
    exact (h.representative slot i hs).grows hgrows
  · rcases hnew i r hr with hr | ⟨-, -, hnil, -⟩
    · exact h.pending i r ref' hr hmem
    · rw [hnil] at hmem
      exact absurd hmem List.not_mem_nil
  · rw [Synonyms.trail, htrails] at hi
    obtain ⟨name, hname, hi⟩ := h.trail ref' i hi
    exact ⟨name, hname, hi.grows hgrows⟩
  · rcases hnew i r hr with hr | ⟨-, -, -, hnone, -⟩
    · exact h.target i r key hr hkey
    · rw [hnone] at hkey
      exact absurd hkey (by simp)

/-- **A reference that comes to a place of its own name** waits for a synonym of that name. -/
theorem wait (h : a.Literal names found) {ref : RefId} {place : Waypoint} (line : Nat)
    (href : names ref = some place.name) :
    (a.wait false ref place line).1.Literal names found ∧
      (a.wait false ref place line).1.Called (a.wait false ref place line).2 place.name := by
  obtain ⟨b, id₀, r₀, heq, -, -, -, hr₀, hplace, -⟩ := exists_recordAt a place line
  have hb : b.Literal names found := by
    have hrecord := h.recordAt place line
    rwa [heq] at hrecord
  let id := r₀.absorbedBy.getD id₀
  have hid : b.Called id place.name := by
    cases habs : r₀.absorbedBy with
    | none => exact ⟨r₀, by simpa [id, habs] using hr₀, by rw [hplace]⟩
    | some into =>
      rw [← hplace, show id = into by simp [id, habs]]
      exact hb.absorber id₀ r₀ into hr₀ habs
  let push (r : Synonym) : Synonym := { r with pending := r.pending ++ [ref] }
  have hwait : a.wait false ref place line = ((b.modify id push).follow ref id, id) :=
    wait_eq heq hr₀ ref
  have hid' : (b.modify id push).Called id place.name := hid.modify fun _ => rfl
  have hpush : (b.modify id push).Literal names found := by
    refine hb.modify (fun _ => rfl) (fun r into => hb.absorber id r into) ?_
      fun r key => hb.target id r key
    intro r ref' hr hmem
    rcases List.mem_append.mp hmem with hold | hlast
    · exact hb.pending id r ref' hr hold
    · obtain ⟨r', hr', hname⟩ := hid
      obtain rfl := Option.some.inj (hr'.symm.trans hr)
      rw [List.mem_singleton.mp hlast, hname]
      exact href
  rw [hwait]
  exact ⟨hpush.follow href hid', hid'.grows (grows_follow _ _ _)⟩

/-- A declaration is represented by its own name, if the name that may come to represent it is. -/
theorem represent (h : a.Literal names found) (hid : a.Called id key.name) (place : Waypoint) :
    (a.representative id place key).1.Literal names found ∧
      (a.representative id place key).1.Called (a.representative id place key).2 key.name ∧
      (a.representative id place key).1.records = a.records := by
  unfold Synonyms.representative
  dsimp only
  split
  · next other hother => exact ⟨h, h.representative _ other hother, rfl⟩
  · refine ⟨⟨h.absorber, fun slot i hs => ?_, h.pending, h.trail, h.target⟩, hid, rfl⟩
    rw [Table.get?_put] at hs
    split at hs
    · next hslot =>
      rw [← hslot, ← Option.some.inj hs]
      exact hid
    · exact h.representative slot i hs

/-- A name is absorbed by the same name. -/
theorem absorb (h : a.Literal names found) {into : SynonymId} {record r first : Synonym}
    (hr : a.get? id = some r) (hid : r.place.name = name) (hinto : a.Called into name)
    (hpending : ∀ ref ∈ record.pending, names ref = some name) :
    (a.absorb id record into first).1.Literal names found ∧
      ∀ i name, a.Called i name → (a.absorb id record into first).1.Called i name := by
  let given (r : Synonym) : Synonym := { r with absorbedBy := some into, pending := [] }
  let taking (r : Synonym) : Synonym := { r with pending := r.pending ++ record.pending }
  have hgiven : (a.modify id given).Literal names found := by
    refine h.modify (fun _ => rfl) ?_ (fun _ _ _ hmem => absurd hmem List.not_mem_nil)
      fun r key => h.target id r key
    intro r' into' hr' hinto'
    obtain rfl := Option.some.inj (hr.symm.trans hr')
    rw [hid, ← Option.some.inj hinto']
    exact hinto
  obtain ⟨first', hfirst, hname⟩ : (a.modify id given).Called into name :=
    hinto.modify fun _ => rfl
  have htaking : ((a.modify id given).modify into taking).Literal names found := by
    refine hgiven.modify (fun _ => rfl) (fun r into' => hgiven.absorber into r into') ?_
      fun r key => hgiven.target into r key
    intro r' ref hr' hmem
    obtain rfl := Option.some.inj (hfirst.symm.trans hr')
    rcases List.mem_append.mp hmem with hold | htaken
    · exact hgiven.pending into first' ref hr' hold
    · rw [hname]
      exact hpending ref htaken
  refine ⟨htaking, fun i name hc => ?_⟩
  have hc : (a.modify id given).Called i name := hc.modify fun _ => rfl
  have hc : ((a.modify id given).modify into taking).Called i name := hc.modify fun _ => rfl
  exact hc

/-- **What waits for a name that stands for a declaration of that name** has the name itself. -/
theorem identify (h : a.Literal names found) (isResolved : RefId → Bool)
    (hid : a.Called id key.name) (hkey : found key) :
    (a.identify isResolved id key).1.Literal names found ∧
      (∀ i name, a.Called i name → (a.identify isResolved id key).1.Called i name) ∧
      ∀ ref ∈ (a.identify isResolved id key).2.1, names ref = some key.name := by
  obtain ⟨record, hrecord, hname⟩ := hid
  let mark (r : Synonym) : Synonym := { r with target := some key }
  have hget : (a.modify id mark).get? id = some (mark record) := by
    rw [get?_modify, if_pos rfl, hrecord]
    rfl
  have hmark : (a.modify id mark).Literal names found := by
    refine h.modify (fun _ => rfl) (fun r into => h.absorber id r into)
      (fun r ref => h.pending id r ref) ?_
    intro r key' hr hkey'
    obtain rfl := Option.some.inj (hrecord.symm.trans hr)
    rw [← Option.some.inj hkey']
    exact ⟨hname, hkey⟩
  have hcalled : (a.modify id mark).Called id key.name := ⟨mark record, hget, hname⟩
  generalize hresult : a.identify isResolved id key = result
  cases identifying hresult with
  | unknown hid => exact absurd (hid.symm.trans hrecord) (by simp)
  | @known record' a₂ a₃ into events hid hrep habsorbs =>
    obtain rfl := Option.some.inj (hrecord.symm.trans hid)
    have hrepresented := hmark.represent hcalled record.place
    rw [show (a.modify id mark).representative id record.place key = (a₂, into)
      from hrep] at hrepresented
    obtain ⟨hliteral, ⟨first, hfirst, hfirstname⟩, hrecords⟩ := hrepresented
    have hget₂ : a₂.get? id = some (mark record) := by rw [get?, hrecords]; exact hget
    -- what is absorbed is called like what absorbs it
    obtain ⟨hlast, hcalled⟩ : a₃.Literal names found ∧ ∀ i name, a₂.Called i name →
      a₃.Called i name := by
      cases habsorbs with
      | taken hfirst' =>
        obtain rfl := Option.some.inj (hfirst'.symm.trans hfirst)
        exact hliteral.absorb hget₂ hname ⟨_, hfirst, hfirstname⟩ fun ref href =>
          hname ▸ h.pending id record ref hrecord href
      | kept => exact ⟨hliteral, fun _ _ hcalled => hcalled⟩
    let clear (r : Synonym) : Synonym := { r with pending := [] }
    refine ⟨hlast.modify (fun _ => rfl) (fun r into' => hlast.absorber into r into')
      (fun _ _ _ hmem => absurd hmem List.not_mem_nil) fun r key => hlast.target into r key, ?_, ?_⟩
    · intro i name hc
      obtain ⟨r, hr, hrname⟩ : (a.modify id mark).Called i name := hc.modify fun _ => rfl
      have hc₂ : a₂.Called i name := ⟨r, by rw [get?, hrecords]; exact hr, hrname⟩
      have hc₃ : (a₃.modify into clear).Called i name := (hcalled i name hc₂).modify fun _ => rfl
      exact hc₃
    · intro ref href
      obtain ⟨r, hr, hrname⟩ := hcalled into _ ⟨first, hfirst, hfirstname⟩
      have hmem := (List.mem_filter.mp href).1
      rw [hr] at hmem
      rw [← hrname]
      exact hlast.pending into r ref hr hmem

end Literal

end Synonyms

namespace Harvest

variable {s s' : Harvest} {o : Outline} {q : Query} {found : Found} {key : Key}

/-- The name of a reference. -/
def nameOf (s : Harvest) (ref : RefId) : Option String := (s.mentions[ref]?).map (·.name)

theorem nameOf_of_reference? {ref : RefId} {r : Reference} (hr : s.reference? ref = some r) :
    s.nameOf ref = some r.name := by
  rw [nameOf, mentions, List.getElem?_map, show s.references[ref]? = some r from hr]
  rfl

theorem nameOf_of_append {references : List Reference}
    (h : s'.mentions = s.mentions ++ references) {ref : RefId} {name : String}
    (hname : s.nameOf ref = some name) : s'.nameOf ref = some name := by
  obtain ⟨r, hr, hrname⟩ := Option.map_eq_some_iff.mp hname
  rw [nameOf, h, List.getElem?_append_left (List.getElem?_eq_some_iff.mp hr).1, hr, ← hrname]
  rfl

/-- **Every name stands for itself**, and every reference is resolved to what has its own name. -/
structure Literal (s : Harvest) : Prop where
  synonyms : s.synonyms.Literal s.nameOf fun key => (s.graft? key).isSome
  resolved : ∀ ref key, s.targetOf ref = some key →
    s.nameOf ref = some key.name ∧ (s.graft? key).isSome

namespace Literal

/-- More references, none of them resolved, and more that was found. -/
theorem extend (h : s.Literal) {references : List Reference}
    (hmentions : s'.mentions = s.mentions ++ references) (hsynonyms : s'.synonyms = s.synonyms)
    (hfound : ∀ key, (s.graft? key).isSome → (s'.graft? key).isSome)
    (htarget : ∀ ref key, s'.targetOf ref = some key → s.targetOf ref = some key) :
    s'.Literal := by
  have hname : ∀ ref name, s.nameOf ref = some name → s'.nameOf ref = some name :=
    fun ref name => nameOf_of_append hmentions
  constructor
  · rw [hsynonyms]
    exact h.synonyms.mono hname hfound
  · intro ref key hkey
    obtain ⟨hown, hsome⟩ := h.resolved ref key (htarget ref key hkey)
    exact ⟨hname ref _ hown, hfound key hsome⟩

/-- **Resolving a reference** to what has its name. -/
theorem deliver (h : s.Literal) (hg : (s.graft? key).isSome) (d : Declaration) {ref : RefId}
    (href : s.nameOf ref = some key.name) : (s.deliver d key ref).Literal := by
  have hdelivered := delivered_deliver hg d ref
  have hname : (s.deliver d key ref).nameOf = s.nameOf := by
    funext i
    rw [nameOf, (sameRecords_deliver s d key ref).mentions, nameOf]
  have hsome : ∀ k, ((s.deliver d key ref).graft? k).isSome = (s.graft? k).isSome :=
    (keeps_deliver s d key ref).isSome_graft?
  constructor
  · rw [hdelivered.synonyms, hname]
    exact h.synonyms.mono (fun _ _ => id) fun k hk => (hsome k).trans hk
  · intro i k hk
    rw [hname, hsome]
    rcases hdelivered.resolves.targetOf_eq i with heq | ⟨hopen, heq⟩
    · exact h.resolved i k (heq ▸ hk)
    · by_cases hi : i = ref
      · subst hi
        rw [← Option.some.inj (heq.symm.trans hk)]
        exact ⟨href, hg⟩
      · rw [hdelivered.others i hi, hopen] at hk
        exact absurd hk (by simp)

/-- **Releasing what waits for a name** that stands for a declaration of that name. -/
theorem release (h : s.Literal) (hg : (s.graft? key).isSome) (d : Declaration) {id : SynonymId}
    {work : List SynonymId} (hid : s.synonyms.Called id key.name)
    (hwork : ∀ i ∈ work, s.synonyms.Called i key.name) :
    (Harvest.release d key id work s).1.Literal ∧
      ((Harvest.release d key id work s).1.graft? key).isSome ∧
      ∀ i ∈ (Harvest.release d key id work s).2,
        (Harvest.release d key id work s).1.synonyms.Called i key.name := by
  obtain ⟨hidentified, hcalled, hready⟩ := h.synonyms.identify s.isResolved hid hg
  let motive : Harvest × List SynonymId → Prop := fun state =>
    state.1.Literal ∧ (state.1.graft? key).isSome ∧ state.1.nameOf = s.nameOf ∧
      ∀ i ∈ state.2, state.1.synonyms.Called i key.name
  have hall : motive (Harvest.release d key id work s) := by
    refine List.foldlRecOn (motive := motive) _ _ ?_ ?_
    · exact ⟨⟨hidentified, h.resolved⟩, hg, rfl, fun i hi => hcalled i _ (hwork i hi)⟩
    · rintro ⟨s₁, work₁⟩ ⟨h₁, hg₁, hname₁, hwork₁⟩ ref href
      have hsynonyms := synonyms_deliver s₁ d key ref
      have hnamed : s₁.nameOf ref = some key.name := by
        rw [hname₁]
        exact hready ref href
      refine ⟨h₁.deliver hg₁ d hnamed, ((keeps_deliver s₁ d key ref).isSome_graft? key).trans hg₁,
        ?_, ?_⟩
      · funext i
        rw [← hname₁, nameOf, (sameRecords_deliver s₁ d key ref).mentions, nameOf]
      · -- the records that are added were passed by a reference of the name
        intro i hi
        rw [hsynonyms]
        rcases List.mem_append.mp hi with hi | hi
        · exact hwork₁ i hi
        · rw [openRecords, List.mem_filter, hsynonyms] at hi
          obtain ⟨name, hname, hi⟩ := h₁.synonyms.trail ref i hi.1
          rw [← Option.some.inj (hname.symm.trans hnamed)]
          exact hi
  exact ⟨hall.1, hall.2.1, hall.2.2.2⟩

/-- **Resolving all that waits** for a name that stands for a declaration of that name. -/
theorem fulfil (h : s.Literal) (hg : (s.graft? key).isSome) {id : SynonymId}
    (hid : s.synonyms.Called id key.name) : (s.fulfil id key).Literal := by
  have hall : ∀ (d : Declaration) (steps : Nat) (work : List SynonymId) (s : Harvest),
      s.Literal → (s.graft? key).isSome → (∀ i ∈ work, s.synonyms.Called i key.name) →
        (fulfilAll d key steps work s).Literal := by
    intro d steps
    induction steps with
    | zero => exact fun _ _ h _ _ => h
    | succ steps ih =>
      intro work s h hg hwork
      rw [fulfilAll_succ]
      split
      · exact h
      · next id hlast =>
        obtain ⟨h', hg', hwork'⟩ := h.release hg d (hwork id (List.mem_of_getLast? hlast))
          fun i hi => hwork i (List.mem_of_mem_dropLast hi)
        exact ih _ _ h' hg' hwork'
  unfold Harvest.fulfil
  split
  · exact hall _ _ _ s h hg fun i hi => List.mem_singleton.mp hi ▸ hid
  · exact h

/-- **A reference that comes to a place of its own name.** -/
theorem arrive (h : s.Literal) {r : Reference} (hr : s.Fresh o q r) (hname : r.name = q.name) :
    (s.arrive o q r).Literal ∧
      (s.arrive o q r).synonyms.Called (s.arrival o q r).2 q.name := by
  have hmentions := mentions_arrive s o q r
  have hsame : (s.arrive o q r).nameOf = s.nameOf := by
    funext i
    rw [nameOf, hmentions, nameOf]
  have href : s.nameOf q.ref = some (q.placeIn o).name := by
    rw [nameOf_of_reference? hr.reference, hname]
    rfl
  obtain ⟨hwait, hcalled⟩ := h.synonyms.wait (shownLine o q.name r) href
  refine ⟨⟨hsame ▸ hwait, fun i key hkey => ?_⟩, hcalled⟩
  rw [hsame]
  refine h.resolved i key ?_
  rw [targetOf, reference?_arrive] at hkey
  split at hkey
  · rw [targetOf]
    cases hi : s.reference? i with
    | none => rw [hi] at hkey; exact absurd hkey (by simp)
    | some x => rw [hi] at hkey; exact hkey
  · exact hkey

/-- **Looking for a name in a file** that declares under each name what has this name, and leaves
nothing out. -/
theorem looks (h : s.Literal) (hlooks : Looks s o q s' found)
    (hname : ∀ r, s.reference? q.ref = some r → r.name = q.name)
    (hown : ∀ d, o.answer q.name q.external = .declared d → d.key.name = q.name)
    (hkept : ∀ r d, o.answer q.name q.external = .declared d → s.leavesOut r d = false) :
    s'.Literal := by
  cases hlooks with
  | passed => exact h
  | elsewhere hr ha => exact (h.arrive hr (hname _ hr.reference)).1
  | starred hr ha => exact (h.arrive hr (hname _ hr.reference)).1
  | unknown hr ha =>
    exact (h.arrive hr (hname _ hr.reference)).1.extend (List.append_nil _).symm rfl
      (fun _ => id) fun _ _ => id
  | leftOut hr ha hl => exact absurd ((hkept _ _ ha).symm.trans hl) (by simp)
  | @again r d hr ha hl hg =>
    obtain ⟨h₁, hcalled⟩ := h.arrive hr (hname _ hr.reference)
    exact h₁.fulfil hg (hown d ha ▸ hcalled)
  | @first r d hr ha hl hg =>
    obtain ⟨h₁, hcalled⟩ := h.arrive hr (hname _ hr.reference)
    have hg : (s.arrive o q r).graft? d.key = none := hg
    obtain ⟨parentRefs, hmeet⟩ := exists_meet (s.arrive o q r) o d (s.arrival o q r).2 (requestOf r)
    obtain ⟨hreferences, hsynonyms⟩ := search_tookIn (s.arrive o q r) d (requestOf r) hg
    have htook : ((s.arrive o q r).tookIn d (requestOf r)).Literal := by
      have hmentions : ((s.arrive o q r).tookIn d (requestOf r)).mentions =
          (s.arrive o q r).mentions ++ [] := by
        rw [mentions, hreferences, List.append_nil, mentions]
      refine h₁.extend hmentions hsynonyms (fun key hkey => ?_) fun ref key hkey => ?_
      · rw [graft?_tookIn (requestOf r) hg]
        split
        · rfl
        · exact hkey
      · rw [targetOf, reference?, hreferences] at hkey
        exact hkey
    have hfulfilled := htook.fulfil
      (by rw [graft?_tookIn (requestOf r) hg, if_pos rfl]; rfl)
      (show (Harvest.synonyms _).Called (s.arrival o q r).2 d.key.name by
        rw [hsynonyms, hown d ha]; exact hcalled)
    rw [hmeet]
    generalize ((s.arrive o q r).tookIn d (requestOf r)).fulfil (s.arrival o q r).2 d.key = s₁
      at hfulfilled
    have hmentions : (s₁.addReferences (mentioned o d)).1.mentions =
        s₁.mentions ++ (mentioned o d).map (·.bare) := List.map_append
    refine hfulfilled.extend hmentions rfl (fun _ => id) fun ref key hkey => ?_
    -- nothing is known yet of what is mentioned
    obtain ⟨x, hx, hkey⟩ := Option.bind_eq_some_iff.mp hkey
    have hx : (s₁.references ++ mentioned o d)[ref]? = some x := hx
    rcases Nat.lt_or_ge ref s₁.references.length with hlt | hge
    · rw [List.getElem?_append_left hlt] at hx
      rw [targetOf_of_reference? hx, hkey]
    · rw [List.getElem?_append_right hge] at hx
      rw [(of_mem_mentioned (List.mem_of_getElem? hx)).1] at hkey
      exact absurd hkey (by simp)

end Literal

/-- **What a declaration mentions** is looked for inside its file, under the names of its
references. -/
theorem Looks.named {queries : List Query} (h : Looks s o q s' (.declared queries)) :
    ∀ query ∈ queries, query.external = false ∧ s'.nameOf query.ref = some query.name := by
  cases h with
  | @first r d hr ha hl hg =>
    obtain ⟨parentRefs, hmeet⟩ := exists_meet (s.arrive o q r) o d (s.arrival o q r).2 (requestOf r)
    rw [hmeet]
    generalize ((s.arrive o q r).tookIn d (requestOf r)).fulfil (s.arrival o q r).2 d.key = s₁
    intro query hquery
    obtain ⟨i, m, hm, rfl⟩ := mem_asked_iff.mp hquery
    refine ⟨rfl, nameOf_of_reference? (r := m) ?_⟩
    change (s₁.references ++ mentioned o d)[s₁.references.length + i]? = some m
    rw [List.getElem?_append_right (Nat.le_add_right _ _), Nat.add_sub_cancel_left, hm]

end Harvest

end TypeGraft
