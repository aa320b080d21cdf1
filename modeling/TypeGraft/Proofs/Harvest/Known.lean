import TypeGraft.Proofs.Harvest.Visits

/-!
# Names that stand for something

A name that was looked for in a file stands for a declaration exactly if a reference that came to it
was resolved. Two invariants say so, one for each direction.

* `TypeGraft.Synonyms.Founded`: a name stands for something only if a reference came to it that
  finds a declaration. A name that a reference passed without coming to it is the one that absorbed
  the name it came to, and stood for something before.
* `TypeGraft.Synonyms.Covered`: what a resolved reference came to stands for something. While what
  waits is worked off, the names that are still to be done are kept in a list.

Only one thing is ever done to what the names stand for: one of them is made to stand for a
declaration (`TypeGraft.Synonyms.Marks`). It is enough to see what that does to the two.
-/

namespace TypeGraft

namespace Synonyms

variable {a b : Synonyms} {came came' : RefId → Waypoint → Prop} {finds finds' : RefId → Prop}
  {id i into : SynonymId} {ref : RefId} {place : Waypoint} {work work' : List SynonymId}

/-- The place of a synonym. -/
def place? (a : Synonyms) (id : SynonymId) : Option Waypoint := (a.get? id).map (·.place)

/-- A synonym stands for some declaration. -/
def Stands (a : Synonyms) (id : SynonymId) : Prop :=
  ∃ r, a.get? id = some r ∧ r.target.isSome = true

/-- **One synonym is made to stand for a declaration.** It may be absorbed by one that represents
the declaration, or represent it itself. -/
structure Marks (id : SynonymId) (a b : Synonyms) : Prop where
  places : b.records.map (·.place) = a.records.map (·.place)
  trails : b.trails = a.trails
  stands : ∀ i, b.Stands i ↔ a.Stands i ∨ i = id ∧ (a.place? id).isSome
  waits : ∀ ref i, b.Waits ref i → ∃ j, a.Waits ref j
  representative : ∀ slot i, b.representatives.get? slot = some i →
    a.representatives.get? slot = some i ∨ i = id ∧ (a.place? id).isSome
  absorber : ∀ i into, b.AbsorbedBy i into → a.AbsorbedBy i into ∨
    (i = id ∧ (a.place? id).isSome) ∧ (into = id ∨ ∃ slot, a.representatives.get? slot = some into)

/-! ### Changing a record -/

theorem place?_eq_getElem? (a : Synonyms) (id : SynonymId) :
    a.place? id = (a.records.map (·.place))[id]? :=
  List.getElem?_map.symm

theorem place?_of_get? {r : Synonym} (h : a.get? id = some r) : a.place? id = some r.place := by
  rw [place?, h]
  rfl

theorem Stands.exists_place (h : a.Stands id) : ∃ place, a.place? id = some place := by
  obtain ⟨r, hr, -⟩ := h
  exact ⟨r.place, place?_of_get? hr⟩

theorem Marks.place?_eq (h : Marks id a b) (i : SynonymId) : b.place? i = a.place? i := by
  rw [place?_eq_getElem?, place?_eq_getElem?, h.places]

section Modify

variable {f : Synonym → Synonym}

theorem map_place_modify (a : Synonyms) (id : SynonymId) (h : ∀ r, (f r).place = r.place) :
    (a.modify id f).records.map (·.place) = a.records.map (·.place) := by
  refine List.ext_getElem? fun i => ?_
  rw [← place?_eq_getElem?, ← place?_eq_getElem?, place?, place?, get?_modify]
  split
  · cases a.get? i with
    | none => rfl
    | some r => exact congrArg some (h r)
  · rfl

theorem waits_modify (h : (a.modify id f).Waits ref i) :
    a.Waits ref i ∨ i = id ∧ ∃ r, a.get? id = some r ∧ ref ∈ (f r).pending := by
  obtain ⟨r, hr, href⟩ := h
  rw [get?_modify] at hr
  split at hr
  · next hid =>
    subst hid
    obtain ⟨r₀, hr₀, rfl⟩ := Option.map_eq_some_iff.mp hr
    exact Or.inr ⟨rfl, r₀, hr₀, href⟩
  · exact Or.inl ⟨r, hr, href⟩

/-- A change that lets nothing else wait. -/
theorem Waits.of_modify (h : (a.modify id f).Waits ref i)
    (hf : ∀ r, ∀ ref ∈ (f r).pending, ref ∈ r.pending) : a.Waits ref i := by
  rcases waits_modify h with h | ⟨rfl, r, hr, href⟩
  · exact h
  · exact ⟨r, hr, hf r ref href⟩

theorem absorbedBy_modify (h : (a.modify id f).AbsorbedBy i into) :
    a.AbsorbedBy i into ∨ i = id ∧ ∃ r, a.get? id = some r ∧ (f r).absorbedBy = some into := by
  obtain ⟨r, hr, habs⟩ := h
  rw [get?_modify] at hr
  split at hr
  · next hid =>
    subst hid
    obtain ⟨r₀, hr₀, rfl⟩ := Option.map_eq_some_iff.mp hr
    exact Or.inr ⟨rfl, r₀, hr₀, habs⟩
  · exact Or.inl ⟨r, hr, habs⟩

/-- A change that absorbs nothing. -/
theorem AbsorbedBy.of_modify (h : (a.modify id f).AbsorbedBy i into)
    (hf : ∀ r, (f r).absorbedBy = r.absorbedBy) : a.AbsorbedBy i into := by
  rcases absorbedBy_modify h with h | ⟨rfl, r, hr, habs⟩
  · exact h
  · exact ⟨r, hr, (hf r).symm.trans habs⟩

/-- A change that takes in nothing that is not there leaves what the synonyms stand for. -/
theorem stands_modify (h : ∀ r, (f r).target = r.target) :
    (a.modify id f).Stands i ↔ a.Stands i := by
  rw [Stands, Stands, get?_modify]
  split
  · cases a.get? i with
    | none => simp
    | some r => simp [h]
  · rfl

theorem stands_modify_of_isSome (h : ∀ r, (f r).target.isSome = true) :
    (a.modify id f).Stands i ↔ a.Stands i ∨ i = id ∧ (a.place? id).isSome := by
  rw [Stands, Stands, get?_modify]
  by_cases hid : id = i
  · subst hid
    rw [if_pos rfl, place?]
    cases a.get? id with
    | none => simp
    | some r => simp [h]
  · rw [if_neg hid]
    simp [Ne.symm hid]

end Modify

/-- The names that a file sees are those that stand for something there. -/
theorem isSome_get?_knownNames_iff {file name : String} :
    ((a.knownNames file).get? name).isSome = true ↔
      ∃ i, a.Stands i ∧ a.place? i = some ⟨file, name, false⟩ := by
  constructor
  · intro hsome
    obtain ⟨key, hkey⟩ := Option.isSome_iff_exists.mp hsome
    obtain ⟨r, hr, hentry⟩ := List.mem_filterMap.mp (Table.mem_of_get? hkey)
    split at hentry
    · next hplace =>
      obtain ⟨key', htarget, heq⟩ := Option.map_eq_some_iff.mp hentry
      obtain ⟨i, hi⟩ := List.mem_iff_getElem?.mp hr
      refine ⟨i, ⟨r, hi, by rw [htarget]; rfl⟩, (place?_of_get? hi).trans (congrArg some ?_)⟩
      rw [← hplace.1, ← (Prod.mk.inj heq).1, ← hplace.2]
    · exact absurd hentry (by simp)
  · rintro ⟨i, ⟨r, hr, htarget⟩, hplace⟩
    obtain ⟨key, hkey⟩ := Option.isSome_iff_exists.mp htarget
    have hplace : r.place = ⟨file, name, false⟩ :=
      Option.some.inj ((place?_of_get? hr).symm.trans hplace)
    have hmem : (name, key) ∈ a.knownNames file :=
      List.mem_filterMap.mpr ⟨r, List.mem_of_getElem? hr, by simp [hplace, hkey]⟩
    cases hget : (a.knownNames file).get? name with
    | none => exact absurd (List.mem_map_of_mem (f := Prod.fst) hmem) (Table.not_mem_keys hget)
    | some key => rfl

/-- What stands in the slot of a declaration is the synonym that is put there, or was there
before. -/
theorem exists_representative_eq (a : Synonyms) (id : SynonymId) (place : Waypoint) (key : Key) :
    ∃ b into, a.representative id place key = (b, into) ∧ b.records = a.records ∧
      b.trails = a.trails ∧
      (∀ slot i, b.representatives.get? slot = some i →
        a.representatives.get? slot = some i ∨ i = id) ∧
      (into = id ∨ ∃ slot, a.representatives.get? slot = some into) := by
  unfold representative
  dsimp only
  split
  · next other hother =>
    exact ⟨a, other, rfl, rfl, rfl, fun _ _ => Or.inl, Or.inr ⟨_, hother⟩⟩
  · refine ⟨_, id, rfl, rfl, rfl, fun slot i h => ?_, Or.inl rfl⟩
    rw [Table.get?_put] at h
    split at h
    · exact Or.inr (Option.some.inj h).symm
    · exact Or.inl h

/-- What one synonym gives to the other waits for one of the two. -/
theorem absorb_spec (into : SynonymId) {record : Synonym} (first : Synonym)
    (hpending : ∀ ref ∈ record.pending, a.Waits ref id) :
    ((a.absorb id record into first).1.records.map (·.place) = a.records.map (·.place)) ∧
      (∀ i, (a.absorb id record into first).1.Stands i ↔ a.Stands i) ∧
      (∀ ref i, (a.absorb id record into first).1.Waits ref i → ∃ j, a.Waits ref j) ∧
      ∀ i j, (a.absorb id record into first).1.AbsorbedBy i j →
        a.AbsorbedBy i j ∨ i = id ∧ j = into := by
  let given (r : Synonym) : Synonym := { r with absorbedBy := some into, pending := [] }
  let taking (r : Synonym) : Synonym := { r with pending := r.pending ++ record.pending }
  have heq : (a.absorb id record into first).1 = (a.modify id given).modify into taking := rfl
  have hgiven : ∀ {ref i}, (a.modify id given).Waits ref i → a.Waits ref i := fun h =>
    h.of_modify fun _ _ hnil => absurd hnil List.not_mem_nil
  rw [heq]
  refine ⟨(map_place_modify _ into (f := taking) fun _ => rfl).trans
    (map_place_modify a id (f := given) fun _ => rfl), fun i => ?_, fun ref i h => ?_,
    fun i j h => ?_⟩
  · exact (stands_modify (f := taking) fun _ => rfl).trans (stands_modify (f := given) fun _ => rfl)
  · rcases waits_modify h with h | ⟨-, r, hr, h⟩
    · exact ⟨i, hgiven h⟩
    · rcases List.mem_append.mp h with h | h
      · exact ⟨into, hgiven ⟨r, hr, h⟩⟩
      · exact ⟨id, hpending ref h⟩
  · have hkept : (a.modify id given).AbsorbedBy i j := h.of_modify fun _ => rfl
    rcases absorbedBy_modify hkept with h | ⟨rfl, r, -, h⟩
    · exact Or.inl h
    · exact Or.inr ⟨rfl, (Option.some.inj h).symm⟩

/-- A synonym that is represented keeps its place and what it stands for. -/
theorem Absorbs.spec {a₂ a₃ : Synonyms} {id into : SynonymId} {record : Synonym}
    {events : List Event}
    (h : a₂.Absorbs id record into a₃ events) (hpending : ∀ ref ∈ record.pending, a₂.Waits ref id) :
    a₃.records.map (·.place) = a₂.records.map (·.place) ∧ a₃.trails = a₂.trails ∧
      a₃.representatives = a₂.representatives ∧ (∀ i, a₃.Stands i ↔ a₂.Stands i) ∧
      (∀ ref i, a₃.Waits ref i → ∃ j, a₂.Waits ref j) ∧
      ∀ i j, a₃.AbsorbedBy i j → a₂.AbsorbedBy i j ∨ i = id ∧ j = into := by
  cases h with
  | @taken first =>
    obtain ⟨hplaces, hstands, hwaits, habsorbed⟩ := absorb_spec into first hpending
    exact ⟨hplaces, rfl, rfl, hstands, hwaits, habsorbed⟩
  | kept => exact ⟨rfl, rfl, rfl, fun _ => Iff.rfl, fun _ i h => ⟨i, h⟩, fun _ _ => Or.inl⟩

/-- **What it comes to that a synonym stands for a declaration.** -/
theorem marks_identify (a : Synonyms) (isResolved : RefId → Bool) (id : SynonymId) (key : Key) :
    Marks id a (a.identify isResolved id key).1 ∧
      ∀ ref ∈ (a.identify isResolved id key).2.1, ∃ j, a.Waits ref j := by
  generalize hfound : a.identify isResolved id key = found
  cases identifying hfound with
  | unknown hid =>
    refine ⟨⟨rfl, rfl, fun i => ?_, fun _ i h => ⟨i, h⟩, fun _ _ => Or.inl, fun _ _ => Or.inl⟩,
      fun ref href => absurd href List.not_mem_nil⟩
    simp [place?, hid]
  | @known record a₂ a₃ into _ hid hrep habsorbs =>
    have hplace : (a.place? id).isSome := by
      rw [place?_of_get? hid]
      rfl
    let mark (r : Synonym) : Synonym := { r with target := some key }
    let clear (r : Synonym) : Synonym := { r with pending := [] }
    -- what is marked
    have hrepresented := exists_representative_eq (a.modify id mark) id record.place key
    rw [show (a.modify id mark).representative id record.place key = (a₂, into)
      from hrep] at hrepresented
    obtain ⟨_, _, heq, hrecords, htrails, hslots, hinto⟩ := hrepresented
    obtain ⟨rfl, rfl⟩ := Prod.mk.inj heq
    have hmarked : ∀ i, a₂.Stands i ↔ a.Stands i ∨ i = id ∧ (a.place? id).isSome := by
      intro i
      rw [Stands, get?, hrecords]
      exact stands_modify_of_isSome (f := mark) fun _ => rfl
    have hpending : ∀ ref ∈ record.pending, a₂.Waits ref id := by
      intro ref href
      refine ⟨mark record, ?_, href⟩
      rw [get?, hrecords, ← get?, get?_modify, if_pos rfl, hid]
      rfl
    -- what is absorbed
    obtain ⟨hplaces, htrails₃, hrep₃, hstands, hwaits, habsorbed⟩ := habsorbs.spec hpending
    have hwaited : ∀ ref i, a₃.Waits ref i → ∃ j, a.Waits ref j := by
      intro ref i h
      obtain ⟨j, r, hr, href⟩ := hwaits ref i h
      rw [get?, hrecords] at hr
      exact ⟨j, Waits.of_modify (f := mark) ⟨r, hr, href⟩ fun _ _ h => h⟩
    have habsorbed₂ : ∀ i j, a₂.AbsorbedBy i j → a.AbsorbedBy i j := by
      rintro i j ⟨r, hr, habs⟩
      rw [get?, hrecords] at hr
      exact AbsorbedBy.of_modify (f := mark) ⟨r, hr, habs⟩ fun _ => rfl
    refine ⟨⟨?_, htrails₃.trans htrails, fun i => ?_, fun ref i h => ?_, fun slot i h => ?_,
      fun i j h => ?_⟩, fun ref href => ?_⟩
    · refine (map_place_modify a₃ into (f := clear) fun _ => rfl).trans (hplaces.trans ?_)
      rw [hrecords]
      exact map_place_modify a id (f := mark) fun _ => rfl
    · exact (stands_modify (f := clear) fun _ => rfl).trans ((hstands i).trans (hmarked i))
    · exact hwaited ref i (h.of_modify fun _ _ hnil => absurd hnil List.not_mem_nil)
    · rcases hslots slot i (hrep₃ ▸ h) with h | rfl
      · exact Or.inl h
      · exact Or.inr ⟨rfl, hplace⟩
    · rcases habsorbed i j (h.of_modify fun _ => rfl) with h | ⟨rfl, rfl⟩
      · exact Or.inl (habsorbed₂ i j h)
      · exact Or.inr ⟨⟨rfl, hplace⟩, hinto⟩
    · -- what is handed out waited for the one that represents the declaration
      obtain ⟨href, -⟩ := List.mem_filter.mp href
      cases hget : a₃.get? into with
      | none =>
        rw [hget] at href
        exact absurd href List.not_mem_nil
      | some r =>
        rw [hget] at href
        exact hwaited ref into ⟨r, hget, href⟩

theorem marks_settleOne (a : Synonyms) (key : Key) (id : SynonymId) :
    Marks id a (a.settleOne key id) := by
  let change (r : Synonym) : Synonym := if r.target.isNone then { r with target := some key } else r
  have hplace : ∀ r : Synonym, (change r).place = r.place := fun r => by
    simp only [change]
    split <;> rfl
  have htarget : ∀ r : Synonym, (change r).target.isSome = true := fun r => by
    simp only [change]
    split
    · rfl
    · next hsome => simpa [Option.isSome_iff_ne_none] using hsome
  have hpending : ∀ r : Synonym, (change r).pending = r.pending := fun r => by
    simp only [change]
    split <;> rfl
  have habsorbed : ∀ r : Synonym, (change r).absorbedBy = r.absorbedBy := fun r => by
    simp only [change]
    split <;> rfl
  refine ⟨map_place_modify a id hplace, rfl, fun i => stands_modify_of_isSome htarget,
    fun ref i h => ?_, fun _ _ => Or.inl, fun i j h => Or.inl ?_⟩
  · exact ⟨i, Waits.of_modify (f := change) h fun r _ hmem => hpending r ▸ hmem⟩
  · exact AbsorbedBy.of_modify (f := change) h habsorbed

/-! ### Waiting at a place -/

/-- **One reference comes to a place**, where it waits for a synonym: that of the place, or the one
that absorbed it. -/
structure Joins (ref : RefId) (place : Waypoint) (id : SynonymId) (a b : Synonyms) : Prop where
  stands : ∀ i, b.Stands i ↔ a.Stands i
  kept : ∀ i p, a.place? i = some p → b.place? i = some p
  trail : ∀ r i, i ∈ b.trail r ↔ i ∈ a.trail r ∨ r = ref ∧ i = id
  waits : ∀ r i, b.Waits r i → (∃ j, a.Waits r j) ∨ r = ref
  representatives : b.representatives = a.representatives
  absorber : ∀ i into, b.AbsorbedBy i into → a.AbsorbedBy i into
  spot : ∃ i, b.place? i = some place ∧ (i = id ∨ a.AbsorbedBy i id)

theorem mem_trail_follow_iff (a : Synonyms) (ref r : RefId) (id i : SynonymId) :
    i ∈ (a.follow ref id).trail r ↔ i ∈ a.trail r ∨ r = ref ∧ i = id := by
  rw [trail_follow]
  split
  · next h => simp [h.1]
  · next h =>
    refine ⟨Or.inl, fun h' => h'.elim (fun hi => hi) ?_⟩
    rintro ⟨rfl, rfl⟩
    by_contra hi
    exact h ⟨rfl, hi⟩

theorem exists_joins (a : Synonyms) (ref : RefId) (place : Waypoint) (line : Nat) :
    ∃ b id, a.wait false ref place line = (b, id) ∧ Joins ref place id a b := by
  obtain ⟨a₁, id₀, r₀, heq, hgrows, htrails, hrep, hr₀, hplace, hnew⟩ :=
    exists_recordAt a place line
  let id := r₀.absorbedBy.getD id₀
  let push (r : Synonym) : Synonym := { r with pending := r.pending ++ [ref] }
  have hwait : a.wait false ref place line = ((a₁.modify id push).follow ref id, id) :=
    wait_eq heq hr₀ ref
  have hget : ∀ i, ((a₁.modify id push).follow ref id).get? i = (a₁.modify id push).get? i :=
    fun i => get?_follow _ ref id i
  have hplaces : ∀ i, ((a₁.modify id push).follow ref id).place? i = a₁.place? i := by
    intro i
    rw [place?, hget, ← place?, place?_eq_getElem?, place?_eq_getElem?,
      map_place_modify a₁ id (f := push) fun _ => rfl]
  -- a record that is made for the place is absorbed by nothing, and nothing waits there
  have habsorbed : ∀ i into, a₁.AbsorbedBy i into → a.AbsorbedBy i into := by
    rintro i into ⟨r, hr, habs⟩
    rcases hnew i r hr with hr | ⟨-, hnone, -⟩
    · exact ⟨r, hr, habs⟩
    · exact absurd (hnone.symm.trans habs) (by simp)
  have hwaits : ∀ r i, a₁.Waits r i → ∃ j, a.Waits r j := by
    rintro r i ⟨r₁, hr₁, hmem⟩
    rcases hnew i r₁ hr₁ with hr₁ | ⟨-, -, hnil, -⟩
    · exact ⟨i, r₁, hr₁, hmem⟩
    · exact absurd (hnil ▸ hmem) List.not_mem_nil
  refine ⟨_, id, hwait, ⟨fun i => ?_, fun i p hp => ?_, fun r i => ?_, fun r i hw => ?_,
    (representatives_follow _ _ _).trans hrep, fun i into habs => ?_, id₀, ?_, ?_⟩⟩
  · rw [Stands, hget]
    refine (stands_modify (f := push) fun _ => rfl).trans ⟨?_, ?_⟩
    · rintro ⟨r, hr, htarget⟩
      rcases hnew i r hr with hr | ⟨-, -, -, hnone, -⟩
      · exact ⟨r, hr, htarget⟩
      · exact absurd htarget (by simp [hnone])
    · rintro ⟨r, hr, htarget⟩
      obtain ⟨r', hr', hg⟩ := hgrows.record i r hr
      exact ⟨r', hr', hg.target htarget⟩
  · rw [hplaces]
    obtain ⟨r, hr, rfl⟩ := Option.map_eq_some_iff.mp hp
    obtain ⟨r', hr', hg⟩ := hgrows.record i r hr
    rw [place?_of_get? hr', hg.place]
  · rw [mem_trail_follow_iff]
    change i ∈ a₁.trail r ∨ _ ↔ _
    rw [trail, htrails, trail]
  · obtain ⟨r', hr', hmem⟩ := hw
    rw [hget] at hr'
    rcases waits_modify (f := push) ⟨r', hr', hmem⟩ with hw | ⟨-, r₁, hr₁, hmem⟩
    · exact Or.inl (hwaits r i hw)
    · rcases List.mem_append.mp hmem with hmem | hmem
      · exact Or.inl (hwaits r id ⟨r₁, hr₁, hmem⟩)
      · exact Or.inr (List.mem_singleton.mp hmem)
  · obtain ⟨r, hr, habs⟩ := habs
    rw [hget] at hr
    exact habsorbed i into (AbsorbedBy.of_modify (f := push) ⟨r, hr, habs⟩ fun _ => rfl)
  · rw [hplaces, place?_of_get? hr₀, hplace]
  · cases habs : r₀.absorbedBy with
    | none => exact Or.inl (by simp [id, habs])
    | some into =>
      have hid : id = into := by simp [id, habs]
      exact Or.inr (hid ▸ habsorbed id₀ into ⟨r₀, hr₀, habs⟩)

/-! ### The two invariants -/

/-- **A name stands for something only if a reference came to it that finds a declaration.** -/
structure Founded (came : RefId → Waypoint → Prop) (finds : RefId → Prop) (a : Synonyms) :
    Prop where
  /-- What waits came to some place. -/
  waits : ∀ ref i, a.Waits ref i → ∃ place, came ref place
  representative : ∀ slot i, a.representatives.get? slot = some i → a.Stands i
  absorber : ∀ i into, a.AbsorbedBy i into → a.Stands i ∧ a.Stands into
  /-- A reference came to what it passed, unless that stood for something. -/
  trail : ∀ ref i, i ∈ a.trail ref →
    a.Stands i ∨ ∃ place, a.place? i = some place ∧ came ref place
  found : ∀ i place, a.Stands i → a.place? i = some place → ∃ ref, finds ref ∧ came ref place

/-- **What a reference came to that finds a declaration stands for something**, or is in a list. -/
structure Covered (came : RefId → Waypoint → Prop) (finds : RefId → Prop) (work : List SynonymId)
    (a : Synonyms) : Prop where
  /-- A reference passed what it came to, unless that stands for something. -/
  placed : ∀ ref place, came ref place →
    ∃ i, a.place? i = some place ∧ (i ∈ a.trail ref ∨ a.Stands i)
  closed : ∀ ref, finds ref → ∀ i ∈ a.trail ref, a.Stands i ∨ i ∈ work

theorem founded_empty : Founded came finds empty := by
  have hget : ∀ i, empty.get? i = none := fun _ => rfl
  refine ⟨?_, fun slot i h => absurd h (by simp [empty]), ?_,
    fun ref i h => absurd h List.not_mem_nil, ?_⟩
  · rintro ref i ⟨r, hr, -⟩
    exact absurd hr (by rw [hget]; simp)
  · rintro i into ⟨r, hr, -⟩
    exact absurd hr (by rw [hget]; simp)
  · rintro i place ⟨r, hr, -⟩
    exact absurd hr (by rw [hget]; simp)

theorem covered_empty (hcame : ∀ ref place, ¬came ref place) : Covered came finds [] empty :=
  ⟨fun ref place h => absurd h (hcame ref place), fun _ _ _ h => absurd h List.not_mem_nil⟩

theorem Founded.mono (h : a.Founded came finds)
    (hcame : ∀ ref place, came ref place → came' ref place)
    (hfinds : ∀ ref, finds ref → finds' ref) : a.Founded came' finds' := by
  refine ⟨fun ref i hw => ?_, h.representative, h.absorber, fun ref i hi => ?_,
    fun i place hs hp => ?_⟩
  · obtain ⟨place, hp⟩ := h.waits ref i hw
    exact ⟨place, hcame ref place hp⟩
  · exact (h.trail ref i hi).imp_right fun ⟨place, hp, hc⟩ => ⟨place, hp, hcame ref place hc⟩
  · obtain ⟨ref, hf, hc⟩ := h.found i place hs hp
    exact ⟨ref, hfinds ref hf, hcame ref place hc⟩

theorem Covered.mono (h : a.Covered came finds work)
    (hcame : ∀ ref place, came' ref place → came ref place)
    (hfinds : ∀ ref, finds' ref → ∀ i ∈ a.trail ref, finds ref ∨ a.Stands i ∨ i ∈ work')
    (hwork : ∀ i ∈ work, i ∈ work') : a.Covered came' finds' work' := by
  refine ⟨fun ref place hc => h.placed ref place (hcame ref place hc), fun ref hf i hi => ?_⟩
  rcases hfinds ref hf i hi with hf | hdone
  · exact (h.closed ref hf i hi).imp_right (hwork i)
  · exact hdone

section Founded

variable (h : a.Founded came finds)
include h

/-- What a reference passed is a name that was looked for. -/
theorem Founded.exists_place (hi : i ∈ a.trail ref) : ∃ place, a.place? i = some place := by
  rcases h.trail ref i hi with hs | ⟨place, hp, -⟩
  · exact hs.exists_place
  · exact ⟨place, hp⟩

/-- What a reference passed that finds a declaration has a reference that came to it and does. -/
theorem Founded.exists_of_mem_trail (hi : i ∈ a.trail ref) (hf : finds ref) :
    ∃ place, a.place? i = some place ∧ ∃ ref, finds ref ∧ came ref place := by
  rcases h.trail ref i hi with hs | ⟨place, hp, hc⟩
  · obtain ⟨place, hp⟩ := hs.exists_place
    exact ⟨place, hp, h.found i place hs hp⟩
  · exact ⟨place, hp, ref, hf, hc⟩

theorem Founded.marks (hm : Marks id a b)
    (hid : ∀ place, a.place? id = some place → ∃ ref, finds ref ∧ came ref place) :
    b.Founded came finds := by
  have hkeep : ∀ {i}, a.Stands i ∨ i = id ∧ (a.place? id).isSome → b.Stands i :=
    fun h => (hm.stands _).mpr h
  refine ⟨fun ref i hw => ?_, fun slot i hs => ?_, fun i into habs => ?_, fun ref i hi => ?_,
    fun i place hs hp => ?_⟩
  · obtain ⟨j, hw⟩ := hm.waits ref i hw
    exact h.waits ref j hw
  · exact hkeep ((hm.representative slot i hs).imp_left (h.representative slot i))
  · rcases hm.absorber i into habs with habs | ⟨⟨rfl, hsome⟩, rfl | ⟨slot, hs⟩⟩
    · exact ⟨hkeep (Or.inl (h.absorber i into habs).1), hkeep (Or.inl (h.absorber i into habs).2)⟩
    · exact ⟨hkeep (Or.inr ⟨rfl, hsome⟩), hkeep (Or.inr ⟨rfl, hsome⟩)⟩
    · exact ⟨hkeep (Or.inr ⟨rfl, hsome⟩), hkeep (Or.inl (h.representative slot into hs))⟩
  · rw [Synonyms.trail, hm.trails] at hi
    refine (h.trail ref i hi).imp (fun hs => hkeep (Or.inl hs)) ?_
    rw [hm.place?_eq]
    exact fun h => h
  · rw [hm.place?_eq] at hp
    rcases (hm.stands i).mp hs with hs | ⟨rfl, -⟩
    · exact h.found i place hs hp
    · exact hid place hp

/-- **Settling some names** that a reference passed which finds a declaration. -/
theorem Founded.settleAll {key : Key} {ids : List SynonymId} (hids : ∀ i ∈ ids, i ∈ a.trail ref)
    (hf : finds ref) : (ids.foldl (fun a i => a.settleOne key i) a).Founded came finds := by
  induction ids generalizing a with
  | nil => exact h
  | cons i ids ih =>
    have hm := marks_settleOne a key i
    refine ih (h.marks hm fun place hp => ?_) fun j hj => ?_
    · obtain ⟨place', hp', hfound⟩ := h.exists_of_mem_trail (hids i List.mem_cons_self) hf
      rwa [← Option.some.inj (hp.symm.trans hp')] at hfound
    · rw [Synonyms.trail, hm.trails]
      exact hids j (List.mem_cons_of_mem _ hj)

theorem Founded.joins {place : Waypoint} (hj : Joins ref place id a b)
    (hcame : ∀ r p, came r p → came' r p) (hnew : came' ref place) : b.Founded came' finds := by
  refine ⟨fun r i hw => ?_, fun slot i hs => ?_, fun i into habs => ?_, fun r i hi => ?_,
    fun i p hs hp => ?_⟩
  · rcases hj.waits r i hw with ⟨j, hw⟩ | rfl
    · obtain ⟨p, hp⟩ := h.waits r j hw
      exact ⟨p, hcame r p hp⟩
    · exact ⟨place, hnew⟩
  · rw [hj.representatives] at hs
    exact (hj.stands i).mpr (h.representative slot i hs)
  · exact (h.absorber i into (hj.absorber i into habs)).imp (hj.stands i).mpr (hj.stands into).mpr
  · rcases (hj.trail r i).mp hi with hi | ⟨rfl, rfl⟩
    · exact (h.trail r i hi).imp (hj.stands i).mpr fun ⟨p, hp, hc⟩ =>
        ⟨p, hj.kept i p hp, hcame r p hc⟩
    · obtain ⟨j, hp, rfl | habs⟩ := hj.spot
      · exact Or.inr ⟨place, hp, hnew⟩
      · exact Or.inl ((hj.stands i).mpr (h.absorber j i habs).2)
  · have hs : a.Stands i := (hj.stands i).mp hs
    obtain ⟨p', hp'⟩ := hs.exists_place
    obtain rfl : p' = p := Option.some.inj ((hj.kept i p' hp').symm.trans hp)
    obtain ⟨r, hf, hc⟩ := h.found i p' hs hp'
    exact ⟨r, hf, hcame r p' hc⟩

end Founded

section Covered

variable (h : a.Covered came finds work)
include h

theorem Covered.marks (hm : Marks id a b) (hid : (a.place? id).isSome)
    (hwork : ∀ i ∈ work, i = id ∨ i ∈ work') : b.Covered came finds work' := by
  refine ⟨fun ref place hc => ?_, fun ref hf i hi => ?_⟩
  · obtain ⟨i, hp, hi⟩ := h.placed ref place hc
    refine ⟨i, (hm.place?_eq i).trans hp,
      hi.imp (fun hi => ?_) fun hs => (hm.stands i).mpr (Or.inl hs)⟩
    rw [Synonyms.trail, hm.trails]
    exact hi
  · rw [Synonyms.trail, hm.trails] at hi
    rw [hm.stands]
    rcases h.closed ref hf i hi with hs | hi
    · exact Or.inl (Or.inl hs)
    · exact (hwork i hi).imp_left fun hsame => Or.inr ⟨hsame, hid⟩

/-- **Settling the names** that are still to be done. -/
theorem Covered.settleAll {key : Key} (hplaces : ∀ i ∈ work, (a.place? i).isSome) :
    (work.foldl (fun a i => a.settleOne key i) a).Covered came finds [] := by
  induction work generalizing a with
  | nil => exact h
  | cons i work ih =>
    have hm := marks_settleOne a key i
    refine ih (h.marks hm (hplaces i List.mem_cons_self) fun j hj => List.mem_cons.mp hj)
      fun j hj => ?_
    rw [hm.place?_eq]
    exact hplaces j (List.mem_cons_of_mem _ hj)

theorem Covered.joins {place : Waypoint} (hj : Joins ref place id a b)
    (habsorbed : ∀ i into, a.AbsorbedBy i into → a.Stands i) (hopen : ¬finds ref)
    (hcame : ∀ r p, came' r p → came r p ∨ r = ref ∧ p = place) : b.Covered came' finds work := by
  refine ⟨fun r p hc => ?_, fun r hf i hi => ?_⟩
  · rcases hcame r p hc with hc | ⟨rfl, rfl⟩
    · obtain ⟨i, hp, hi⟩ := h.placed r p hc
      exact ⟨i, hj.kept i p hp, hi.imp (fun hi => (hj.trail r i).mpr (Or.inl hi)) (hj.stands i).mpr⟩
    · obtain ⟨i, hp, rfl | habs⟩ := hj.spot
      · exact ⟨i, hp, Or.inl ((hj.trail r i).mpr (Or.inr ⟨rfl, rfl⟩))⟩
      · exact ⟨i, hp, Or.inr ((hj.stands i).mpr (habsorbed i _ habs))⟩
  · rw [hj.stands]
    refine h.closed r hf i (((hj.trail r i).mp hi).resolve_right ?_)
    rintro ⟨rfl, -⟩
    exact hopen hf

end Covered

end Synonyms

end TypeGraft
