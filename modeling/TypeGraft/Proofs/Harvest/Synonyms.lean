import Mathlib.Logic.Relation
import TypeGraft.Harvest.Synonyms
import TypeGraft.Proofs.Table

/-!
# How synonyms grow

What a search relies on when names are found to stand for one declaration. The rest of the
theory does not look into the records; it knows that a reference *waits* for a synonym
(`TypeGraft.Synonyms.Waits`) and that it *passed* one (`TypeGraft.Synonyms.Passed`), at the
synonym itself or at one that it represents.

* `TypeGraft.Synonyms.Grows`: nothing that is known of a synonym is ever taken back.
* `TypeGraft.Synonyms.Consistent`: what holds between two steps of a search.
* `TypeGraft.Synonyms.exists_wait`: what a reference that comes to a place finds there.
* `TypeGraft.Synonyms.identified_identify`: what is handed out when a synonym is found to stand
  for a declaration.

**Declared names.** The records do not know what the files declare, so this is a parameter
`declares` of all that follows. A name that is declared where it was looked for is absorbed at
most by the representative of its own declaration. This is why no reference that comes to a
declaration is left waiting (`TypeGraft.Synonyms.Leads`).
-/

namespace TypeGraft

/-- What is known of a synonym is not taken back. -/
structure Synonym.Grows (before after : Synonym) : Prop where
  place : after.place = before.place
  target : before.target.isSome → after.target.isSome
  absorbedBy : ∀ into, before.absorbedBy = some into → after.absorbedBy = some into

theorem Synonym.Grows.refl (r : Synonym) : r.Grows r := ⟨rfl, id, fun _ => id⟩

theorem Synonym.Grows.trans {r r' r'' : Synonym} (h : r.Grows r') (h' : r'.Grows r'') :
    r.Grows r'' :=
  ⟨h'.place.trans h.place, fun ht => h'.target (h.target ht),
    fun into hi => h'.absorbedBy into (h.absorbedBy into hi)⟩

namespace Synonyms

/-- One synonym is absorbed by another. -/
def AbsorbedBy (a : Synonyms) (id into : SynonymId) : Prop :=
  ∃ record, a.get? id = some record ∧ record.absorbedBy = some into

/-- One synonym stands for another in the end, or for itself. -/
abbrev RepresentedBy (a : Synonyms) : SynonymId → SynonymId → Prop :=
  Relation.ReflTransGen a.AbsorbedBy

/-- A reference waits for a synonym. -/
def Waits (a : Synonyms) (ref : RefId) (id : SynonymId) : Prop :=
  ∃ record, a.get? id = some record ∧ ref ∈ record.pending

/-- A reference passed a synonym, or one that it represents. -/
def Passed (a : Synonyms) (ref : RefId) (id : SynonymId) : Prop :=
  ∃ i ∈ a.trail ref, a.RepresentedBy i id

/-- **Nothing is taken back**: records, representatives and trails stay. -/
structure Grows (a b : Synonyms) : Prop where
  record : ∀ id r, a.get? id = some r → ∃ r', b.get? id = some r' ∧ r.Grows r'
  representatives : ∀ slot id, a.representatives.get? slot = some id →
    b.representatives.get? slot = some id
  trail : ∀ ref id, id ∈ a.trail ref → id ∈ b.trail ref

variable {a b c : Synonyms} {declares : Waypoint → Key → Prop} {key : Key}

namespace Grows

theorem refl (a : Synonyms) : a.Grows a :=
  ⟨fun _ r h => ⟨r, h, Synonym.Grows.refl r⟩, fun _ _ => id, fun _ _ => id⟩

theorem trans (h : a.Grows b) (h' : b.Grows c) : a.Grows c := by
  refine ⟨?_, fun slot id hs => h'.representatives slot id (h.representatives slot id hs),
    fun ref id hi => h'.trail ref id (h.trail ref id hi)⟩
  intro id r hr
  obtain ⟨r', hr', hg⟩ := h.record id r hr
  obtain ⟨r'', hr'', hg'⟩ := h'.record id r' hr'
  exact ⟨r'', hr'', hg.trans hg'⟩

theorem absorbedBy (h : a.Grows b) {id into : SynonymId} (hi : a.AbsorbedBy id into) :
    b.AbsorbedBy id into := by
  obtain ⟨r, hr, hinto⟩ := hi
  obtain ⟨r', hr', hg⟩ := h.record id r hr
  exact ⟨r', hr', hg.absorbedBy into hinto⟩

theorem passed (h : a.Grows b) {ref : RefId} {id : SynonymId} (hp : a.Passed ref id) :
    b.Passed ref id := by
  obtain ⟨i, hi, hrep⟩ := hp
  exact ⟨i, h.trail ref i hi, hrep.lift _ fun _ _ hab => h.absorbedBy hab⟩

end Grows

theorem Passed.trans {ref : RefId} {id into : SynonymId} (h : a.Passed ref id)
    (h' : a.RepresentedBy id into) : a.Passed ref into := by
  obtain ⟨i, hi, hrep⟩ := h
  exact ⟨i, hi, hrep.trans h'⟩

/-! ### What holds between two steps -/

/-- **What holds between two steps of a search.** -/
structure Consistent (declares : Waypoint → Key → Prop) (a : Synonyms) : Prop where
  /-- A declared name is absorbed by the representative of its declaration. -/
  represented : ∀ id r into key, a.get? id = some r → r.absorbedBy = some into →
    declares r.place key → a.representatives.get? (r.place.file, r.place.external, key) = some into
  /-- What absorbs a name is a name of the same file. -/
  absorber : ∀ id r into, a.get? id = some r → r.absorbedBy = some into →
    ∃ r', a.get? into = some r' ∧ r'.place.file = r.place.file ∧
      r'.place.external = r.place.external
  /-- What represents the names of a file is one of them. -/
  representative : ∀ slot id, a.representatives.get? slot = some id →
    ∃ r, a.get? id = some r ∧ r.place.file = slot.1 ∧ r.place.external = slot.2.1
  /-- What was absorbed stands for something. -/
  target : ∀ id r into, a.get? id = some r → r.absorbedBy = some into → r.target.isSome
  /-- What waits for a synonym passed it. -/
  passed : ∀ ref id, a.Waits ref id → a.Passed ref id

/-- Every declared name stands for something, but perhaps the one that was just met. -/
def SettledBut (declares : Waypoint → Key → Prop) (a : Synonyms) (id : SynonymId) : Prop :=
  ∀ i r key, i ≠ id → a.get? i = some r → declares r.place key → r.target.isSome

/-- Every declared name stands for something. -/
def Settled (declares : Waypoint → Key → Prop) (a : Synonyms) : Prop :=
  ∀ i r key, a.get? i = some r → declares r.place key → r.target.isSome

/-- **A synonym that leads to a declaration**: what waits for it is handed out when it is found
to stand for the declaration. -/
def Leads (declares : Waypoint → Key → Prop) (a : Synonyms) (key : Key) (id : SynonymId) : Prop :=
  ∃ r, a.get? id = some r ∧
    ((r.absorbedBy = none ∧ ∀ k, declares r.place k → k = key) ∨
      a.representatives.get? (r.place.file, r.place.external, key) = some id)

/-- A synonym that leads to a declaration, or was absorbed on account of it. -/
def Fits (declares : Waypoint → Key → Prop) (a : Synonyms) (key : Key) (id : SynonymId) : Prop :=
  a.Leads declares key id ∨ ∃ r into, a.get? id = some r ∧ r.absorbedBy = some into ∧
    a.representatives.get? (r.place.file, r.place.external, key) = some into

theorem consistent_empty : Consistent declares empty := by
  refine ⟨?_, ?_, ?_, ?_, ?_⟩
  · intro id r into key h
    exact absurd h (by simp [empty, get?])
  · intro id r into h
    exact absurd h (by simp [empty, get?])
  · intro slot id h
    exact absurd h (by simp [empty])
  · intro id r into h
    exact absurd h (by simp [empty, get?])
  · intro ref id h
    obtain ⟨r, h, -⟩ := h
    exact absurd h (by simp [empty, get?])

theorem settled_empty : Settled declares empty := by
  intro i r key h
  exact absurd h (by simp [empty, get?])

/-- A synonym that stands for nothing yet leads to any declaration, where each declared name stands
for something: it was not absorbed, and declares nothing itself. -/
theorem Consistent.leads_of_open (hc : a.Consistent declares) (hs : a.Settled declares)
    {id : SynonymId} {r : Synonym} (hr : a.get? id = some r) (hopen : r.target = none) (key : Key) :
    a.Leads declares key id := by
  refine ⟨r, hr, Or.inl ⟨?_, fun k hk => ?_⟩⟩
  · cases habs : r.absorbedBy with
    | none => rfl
    | some into => exact absurd (hc.target id r into hr habs) (by simp [hopen])
  · exact absurd (hs id r k hr hk) (by simp [hopen])

/-! ### Changing a record -/

/-- **A revision** changes what is known of the records, adds none, and leaves the trails
alone. -/
structure Revises (a b : Synonyms) : Prop extends Grows a b where
  trails : b.trails = a.trails
  origin : ∀ id r', b.get? id = some r' → ∃ r, a.get? id = some r ∧ r.Grows r'

namespace Revises

theorem refl (a : Synonyms) : a.Revises a :=
  ⟨Grows.refl a, rfl, fun _ r h => ⟨r, h, Synonym.Grows.refl r⟩⟩

theorem trans (h : a.Revises b) (h' : b.Revises c) : a.Revises c := by
  refine ⟨h.toGrows.trans h'.toGrows, h'.trails.trans h.trails, ?_⟩
  intro i r'' hr''
  obtain ⟨r', hr', hg'⟩ := h'.origin i r'' hr''
  obtain ⟨r, hr, hg⟩ := h.origin i r' hr'
  exact ⟨r, hr, hg.trans hg'⟩

/-- A revision settles what was settled, and with the one that was left all. -/
theorem settled (h : a.Revises b) {id : SynonymId} (hs : a.SettledBut declares id)
    (hid : ∀ r, b.get? id = some r → r.target.isSome) : b.Settled declares := by
  intro i r key hr hd
  by_cases hsame : i = id
  · subst hsame
    exact hid r hr
  · obtain ⟨r₀, hr₀, hg⟩ := h.origin i r hr
    rw [hg.place] at hd
    exact hg.target (hs i r₀ key hsame hr₀ hd)

end Revises

theorem get?_modify (a : Synonyms) (id i : SynonymId) (change : Synonym → Synonym) :
    (a.modify id change).get? i = if id = i then (a.get? i).map change else a.get? i := by
  rw [get?, modify, get?, List.getElem?_modify]
  split
  · rfl
  · simp

/-- A change that keeps what is known of a record. -/
theorem revises_modify {id : SynonymId} {change : Synonym → Synonym}
    (h : ∀ r, a.get? id = some r → r.Grows (change r)) : a.Revises (a.modify id change) := by
  refine ⟨⟨?_, fun _ _ hs => hs, fun _ _ hi => hi⟩, rfl, ?_⟩
  · intro i r hr
    rw [get?_modify]
    split
    · next hid =>
      subst hid
      exact ⟨change r, by rw [hr]; rfl, h r hr⟩
    · exact ⟨r, hr, Synonym.Grows.refl r⟩
  · intro i r' hr'
    rw [get?_modify] at hr'
    split at hr'
    · next hid =>
      subst hid
      obtain ⟨r, hr, rfl⟩ := Option.map_eq_some_iff.mp hr'
      exact ⟨r, hr, h r hr⟩
    · exact ⟨r', hr', Synonym.Grows.refl r'⟩

/-- A change that absorbs nothing, and lets nothing wait that did not pass the synonym. -/
theorem Consistent.modify (hc : a.Consistent declares) {id : SynonymId} {change : Synonym → Synonym}
    (hgrows : ∀ r : Synonym, r.Grows (change r))
    (habsorbed : ∀ r, (change r).absorbedBy = r.absorbedBy)
    (hpending : ∀ r ref, a.get? id = some r → ref ∈ (change r).pending → a.Passed ref id) :
    (a.modify id change).Consistent declares := by
  have hrev : a.Revises (a.modify id change) := revises_modify fun r _ => hgrows r
  -- every record is an old one with the same absorber
  have hold : ∀ i r, (a.modify id change).get? i = some r → ∃ r₀, a.get? i = some r₀ ∧
      r₀.Grows r ∧ r.absorbedBy = r₀.absorbedBy ∧ ∀ ref ∈ r.pending, a.Passed ref i := by
    intro i r hr
    rw [get?_modify] at hr
    split at hr
    · next hid =>
      subst hid
      obtain ⟨r₀, hr₀, rfl⟩ := Option.map_eq_some_iff.mp hr
      exact ⟨r₀, hr₀, hgrows r₀, habsorbed r₀, fun ref => hpending r₀ ref hr₀⟩
    · exact ⟨r, hr, Synonym.Grows.refl r, rfl, fun ref href => hc.passed ref i ⟨r, hr, href⟩⟩
  refine ⟨?_, ?_, ?_, ?_, ?_⟩
  · intro i r into key hr hi hd
    obtain ⟨r₀, hr₀, hg, ha, -⟩ := hold i r hr
    rw [hg.place] at hd ⊢
    exact hc.represented i r₀ into key hr₀ (ha.symm.trans hi) hd
  · intro i r into hr hi
    obtain ⟨r₀, hr₀, hg, ha, -⟩ := hold i r hr
    obtain ⟨r₁, hr₁, hfile, hext⟩ := hc.absorber i r₀ into hr₀ (ha.symm.trans hi)
    obtain ⟨r₁', hr₁', hg₁⟩ := hrev.record into r₁ hr₁
    rw [hg.place]
    exact ⟨r₁', hr₁', (congrArg _ hg₁.place).trans hfile, (congrArg _ hg₁.place).trans hext⟩
  · intro slot i hs
    obtain ⟨r₀, hr₀, hfile, hext⟩ := hc.representative slot i hs
    obtain ⟨r', hr', hg⟩ := hrev.record i r₀ hr₀
    exact ⟨r', hr', (congrArg _ hg.place).trans hfile, (congrArg _ hg.place).trans hext⟩
  · intro i r into hr hi
    obtain ⟨r₀, hr₀, hg, ha, -⟩ := hold i r hr
    exact hg.target (hc.target i r₀ into hr₀ (ha.symm.trans hi))
  · intro ref i hw
    obtain ⟨r, hr, href⟩ := hw
    obtain ⟨-, -, -, -, hp⟩ := hold i r hr
    exact hrev.passed (hp ref href)

/-! ### Settling a trail -/

/-- Letting a synonym stand for a declaration, unless it stands for one. -/
def settleOne (a : Synonyms) (key : Key) (id : SynonymId) : Synonyms :=
  a.modify id fun r => if r.target.isNone then { r with target := some key } else r

theorem settle_eq (a : Synonyms) (ref : RefId) (key : Key) :
    a.settle ref key = (a.trail ref).foldl (fun a id => a.settleOne key id) a := rfl

theorem grows_settled (r : Synonym) (key : Key) :
    r.Grows (if r.target.isNone then { r with target := some key } else r) := by
  split
  · exact ⟨rfl, fun _ => rfl, fun _ => id⟩
  · exact Synonym.Grows.refl r

theorem revises_settleOne (a : Synonyms) (key : Key) (id : SynonymId) :
    a.Revises (a.settleOne key id) :=
  revises_modify fun r _ => grows_settled r key

theorem isSome_target_settleOne {id : SynonymId} {r : Synonym}
    (h : (a.settleOne key id).get? id = some r) : r.target.isSome := by
  rw [settleOne, get?_modify, if_pos rfl] at h
  obtain ⟨r₀, -, rfl⟩ := Option.map_eq_some_iff.mp h
  split
  · rfl
  · next hsome => simpa [Option.isSome_iff_ne_none] using hsome

theorem Consistent.settleOne (hc : a.Consistent declares) (id : SynonymId) :
    (a.settleOne key id).Consistent declares := by
  refine hc.modify (fun r => grows_settled r key) ?_
    fun r ref hr href => hc.passed ref id ⟨r, hr, ?_⟩
  · intro r
    split <;> rfl
  · split at href <;> exact href

/-- **Settling a trail** is a revision, after which all on the trail stand for something. -/
theorem revises_settle (hc : a.Consistent declares) (ref : RefId) (key : Key) :
    a.Revises (a.settle ref key) ∧ (a.settle ref key).Consistent declares ∧
      ∀ i ∈ a.trail ref, ∀ r, (a.settle ref key).get? i = some r → r.target.isSome := by
  rw [settle_eq]
  generalize a.trail ref = ids
  induction ids generalizing a with
  | nil => exact ⟨Revises.refl a, hc, by simp⟩
  | cons id ids ih =>
    obtain ⟨hrev, hcons, hset⟩ := ih (hc.settleOne id)
    refine ⟨(revises_settleOne a key id).trans hrev, hcons, ?_⟩
    intro i hi r hr
    rcases List.mem_cons.mp hi with rfl | hi
    · obtain ⟨r₀, hr₀, hg⟩ := hrev.origin i r hr
      exact hg.target (isSome_target_settleOne hr₀)
    · exact hset i hi r hr

/-! ### Coming to a place -/

theorem trail_follow (a : Synonyms) (ref r : RefId) (id : SynonymId) :
    (a.follow ref id).trail r =
      if ref = r ∧ id ∉ a.trail ref then a.trail ref ++ [id] else a.trail r := by
  by_cases hid : id ∈ a.trail ref
  · rw [follow, if_pos hid, if_neg fun h => h.2 hid]
  · rw [follow, if_neg hid]
    by_cases hr : ref = r
    · subst hr
      rw [if_pos ⟨rfl, hid⟩]
      simp [trail]
    · rw [if_neg fun h => hr h.1]
      simp [trail, Table.get?_put, hr]

theorem mem_trail_follow (a : Synonyms) (ref : RefId) (id : SynonymId) :
    id ∈ (a.follow ref id).trail ref := by
  rw [trail_follow]
  split
  · simp
  · next h => exact Classical.not_not.mp fun hid => h ⟨rfl, hid⟩

theorem records_follow (a : Synonyms) (ref : RefId) (id : SynonymId) :
    (a.follow ref id).records = a.records := by
  unfold follow
  dsimp only
  split <;> rfl

theorem representatives_follow (a : Synonyms) (ref : RefId) (id : SynonymId) :
    (a.follow ref id).representatives = a.representatives := by
  unfold follow
  dsimp only
  split <;> rfl

theorem get?_follow (a : Synonyms) (ref : RefId) (id i : SynonymId) :
    (a.follow ref id).get? i = a.get? i := by
  rw [get?, get?, records_follow]

theorem follow_modify (a : Synonyms) (ref : RefId) (id i : SynonymId)
    (change : Synonym → Synonym) :
    (a.modify i change).follow ref id = (a.follow ref id).modify i change := by
  have htrail : (a.modify i change).trail ref = a.trail ref := rfl
  unfold follow
  dsimp only
  rw [htrail]
  split <;> rfl

theorem grows_follow (a : Synonyms) (ref : RefId) (id : SynonymId) : a.Grows (a.follow ref id) := by
  refine ⟨fun i r hr => ⟨r, by rw [get?_follow, hr], Synonym.Grows.refl r⟩, fun slot i hs => ?_,
    fun r i hi => ?_⟩
  · rw [representatives_follow]
    exact hs
  · rw [trail_follow]
    split
    · next h =>
      rw [h.1]
      exact List.mem_append_left _ hi
    · exact hi

/-- More records that are not absorbed and that nothing waits for, and longer trails. -/
theorem Consistent.of_grows (hc : a.Consistent declares) (hgrows : a.Grows b)
    (hrep : b.representatives = a.representatives)
    (hnew : ∀ i r, b.get? i = some r → a.get? i = some r ∨ (r.absorbedBy = none ∧ r.pending = [])) :
    b.Consistent declares := by
  -- what is absorbed is not new
  have hold : ∀ i r into, b.get? i = some r → r.absorbedBy = some into → a.get? i = some r := by
    intro i r into hr hi
    refine (hnew i r hr).resolve_right ?_
    intro h
    rw [h.1] at hi
    exact absurd hi (by simp)
  refine ⟨?_, ?_, ?_, ?_, ?_⟩
  · intro i r into key hr hi hd
    rw [hrep]
    exact hc.represented i r into key (hold i r into hr hi) hi hd
  · intro i r into hr hi
    obtain ⟨r₁, hr₁, hfile, hext⟩ := hc.absorber i r into (hold i r into hr hi) hi
    obtain ⟨r₁', hr₁', hg⟩ := hgrows.record into r₁ hr₁
    exact ⟨r₁', hr₁', (congrArg _ hg.place).trans hfile, (congrArg _ hg.place).trans hext⟩
  · intro slot i hs
    rw [hrep] at hs
    obtain ⟨r₀, hr₀, hfile, hext⟩ := hc.representative slot i hs
    obtain ⟨r', hr', hg⟩ := hgrows.record i r₀ hr₀
    exact ⟨r', hr', (congrArg _ hg.place).trans hfile, (congrArg _ hg.place).trans hext⟩
  · intro i r into hr hi
    exact hc.target i r into (hold i r into hr hi) hi
  · intro ref i hw
    obtain ⟨r, hr, href⟩ := hw
    -- nothing waits for a new record
    rcases hnew i r hr with hr₀ | ⟨-, hnil⟩
    · exact hgrows.passed (hc.passed ref i ⟨r, hr₀, href⟩)
    · rw [hnil] at href
      exact absurd href (by simp)

/-- A synonym for a place, put behind the others. -/
def add (a : Synonyms) (place : Waypoint) (line : Nat) : Synonyms :=
  { a with records := a.records ++ [⟨place, line, none, none, []⟩] }

theorem get?_add (a : Synonyms) (place : Waypoint) (line : Nat) (i : SynonymId) :
    (a.add place line).get? i =
      if i = a.records.length then some ⟨place, line, none, none, []⟩ else a.get? i := by
  rw [get?, add, List.getElem?_append]
  split
  · next hi => rw [if_neg (Nat.ne_of_lt hi), get?]
  · next hi =>
    by_cases he : i = a.records.length
    · rw [if_pos he, he, Nat.sub_self]
      rfl
    · have hlast : a.records.length < i := Nat.lt_of_le_of_ne (Nat.not_lt.mp hi) (Ne.symm he)
      rw [if_neg he, get?, List.getElem?_eq_none (Nat.le_of_lt hlast),
        List.getElem?_eq_none (Nat.sub_pos_of_lt hlast)]

/-- A record that was there is not the one that is put behind it. -/
theorem get?_add_of_get? {i : SynonymId} {r : Synonym} (h : a.get? i = some r) (place : Waypoint)
    (line : Nat) : (a.add place line).get? i = some r := by
  have hi : i < a.records.length := (List.getElem?_eq_some_iff.mp h).1
  rw [get?_add, if_neg (Nat.ne_of_lt hi), h]

/-- A place has its synonym, or gets one. -/
theorem recordAt_cases (a : Synonyms) (place : Waypoint) (line : Nat) :
    (∃ id r, a.recordAt place line = (a, id) ∧ a.get? id = some r ∧ r.place = place) ∨
      a.recordAt place line = (a.add place line, a.records.length) := by
  unfold recordAt
  dsimp only
  split
  · next hlt =>
    exact Or.inl ⟨_, _, rfl, List.getElem?_eq_getElem hlt,
      of_decide_eq_true (List.findIdx_getElem (w := hlt))⟩
  · next hge =>
    -- no record is about the place
    have hlen : a.records.findIdx (·.place = place) = a.records.length :=
      Nat.le_antisymm List.findIdx_le_length (Nat.not_lt.mp hge)
    rw [hlen]
    exact Or.inr rfl

/-- **The synonym of a place**, with what becomes of the others when it is made. -/
theorem exists_recordAt (a : Synonyms) (place : Waypoint) (line : Nat) :
    ∃ b id r, a.recordAt place line = (b, id) ∧ a.Grows b ∧ b.trails = a.trails ∧
      b.representatives = a.representatives ∧ b.get? id = some r ∧ r.place = place ∧
      ∀ i r', b.get? i = some r' → a.get? i = some r' ∨
        (i = id ∧ r'.absorbedBy = none ∧ r'.pending = [] ∧ r'.target = none ∧
          r'.place = place) := by
  rcases recordAt_cases a place line with ⟨id, r, heq, hr, hplace⟩ | heq
  · exact ⟨a, id, r, heq, Grows.refl a, rfl, rfl, hr, hplace, fun i r' hr' => Or.inl hr'⟩
  · refine ⟨a.add place line, _, ⟨place, line, none, none, []⟩, heq, ⟨fun i r hr => ?_,
      fun _ _ hs => hs, fun _ _ hi => hi⟩, rfl, rfl, ?_, rfl, fun i r' hr' => ?_⟩
    · exact ⟨r, get?_add_of_get? hr place line, Synonym.Grows.refl r⟩
    · rw [get?_add, if_pos rfl]
    · rw [get?_add] at hr'
      split at hr'
      · next he =>
        rw [← Option.some.inj hr']
        exact Or.inr ⟨he, rfl, rfl, rfl, rfl⟩
      · exact Or.inl hr'

/-- A reference waits for what absorbed the record of the place, if something did, and for that
record otherwise. -/
theorem wait_eq {place : Waypoint} {line : Nat} {id₀ : SynonymId} {r₀ : Synonym}
    (heq : a.recordAt place line = (b, id₀)) (hr₀ : b.get? id₀ = some r₀) (ref : RefId) :
    a.wait false ref place line =
      ((b.modify (r₀.absorbedBy.getD id₀) fun r =>
        { r with pending := r.pending ++ [ref] }).follow ref (r₀.absorbedBy.getD id₀),
        r₀.absorbedBy.getD id₀) := by
  rw [wait, heq]
  dsimp only
  rw [hr₀]
  rfl

/-- **What a reference finds that comes to a place**: it waits for a synonym, on whose trail it
is now. If the name is declared at the place, that synonym leads to the declaration. -/
theorem exists_wait (hc : a.Consistent declares) (ref : RefId) (place : Waypoint) (line : Nat) :
    ∃ b id, a.wait false ref place line = (b, id) ∧ a.Grows b ∧ b.Consistent declares ∧
      b.Waits ref id ∧ id ∈ b.trail ref ∧ (∀ r, r ≠ ref → b.trail r = a.trail r) ∧
      (a.Settled declares → b.SettledBut declares id) ∧
      (a.Settled declares → (∀ key, ¬declares place key) → b.Settled declares) ∧
      ∀ key, declares place key → (∀ k, declares place k → k = key) → b.Leads declares key id := by
  obtain ⟨a₁, id₀, r₀, heq, hgrows, htrails, hrep, hr₀, hplace, hnew⟩ :=
    exists_recordAt a place line
  have hc₁ : a₁.Consistent declares := hc.of_grows hgrows hrep fun i r hr =>
    (hnew i r hr).imp_right fun h => ⟨h.2.1, h.2.2.1⟩
  let id := r₀.absorbedBy.getD id₀
  let push (r : Synonym) : Synonym := { r with pending := r.pending ++ [ref] }
  have hwait : a.wait false ref place line = ((a₁.follow ref id).modify id push, id) :=
    (wait_eq heq hr₀ ref).trans (Prod.ext (follow_modify a₁ ref id id push) rfl)
  obtain ⟨r, hr⟩ : ∃ r, a₁.get? id = some r := by
    cases habs : r₀.absorbedBy with
    | none => exact ⟨r₀, by simpa [id, habs] using hr₀⟩
    | some into =>
      obtain ⟨r, hr, -⟩ := hc₁.absorber id₀ r₀ into hr₀ habs
      exact ⟨r, by simpa [id, habs] using hr⟩
  have hc₂ : (a₁.follow ref id).Consistent declares :=
    hc₁.of_grows (grows_follow a₁ ref id) (representatives_follow a₁ ref id) fun i r hr =>
      Or.inl (by rw [← hr, get?_follow])
  have hpush : ∀ r : Synonym, r.Grows (push r) := fun r => ⟨rfl, fun h => h, fun _ h => h⟩
  have htrail : id ∈ (a₁.follow ref id).trail ref := mem_trail_follow a₁ ref id
  have hrev : (a₁.follow ref id).Revises ((a₁.follow ref id).modify id push) :=
    revises_modify fun r _ => hpush r
  have hlast : ((a₁.follow ref id).modify id push).get? id = some (push r) := by
    rw [get?_modify, if_pos rfl, get?_follow, hr]
    rfl
  -- a record that was not there before is the one that the reference waits for
  have horigin : ∀ i r', ((a₁.follow ref id).modify id push).get? i = some r' →
      ∃ r, r.Grows r' ∧ (a.get? i = some r ∨ (i = id ∧ r.place = place)) := by
    intro i r' hr'
    obtain ⟨r₁, hr₁, hg⟩ := hrev.origin i r' hr'
    rw [get?_follow] at hr₁
    refine ⟨r₁, hg, (hnew i r₁ hr₁).imp_right fun ⟨hi, habs, _, _, hp⟩ => ⟨?_, hp⟩⟩
    subst hi
    rw [hr₀] at hr₁
    obtain rfl := Option.some.inj hr₁
    simp [id, habs]
  refine ⟨_, id, hwait, (hgrows.trans (grows_follow a₁ ref id)).trans hrev.toGrows,
    hc₂.modify hpush (fun _ => rfl) ?_, ⟨push r, hlast, by simp [push]⟩,
    htrail, ?_, ?_, ?_, ?_⟩
  · intro r' ref' hr' href'
    rcases List.mem_append.mp href' with h | h
    · exact hc₂.passed ref' id ⟨r', hr', h⟩
    · rw [List.mem_singleton.mp h]
      exact ⟨id, htrail, Relation.ReflTransGen.refl⟩
  · intro r' hr'
    change (a₁.follow ref id).trail r' = a.trail r'
    rw [trail_follow, if_neg fun h => hr' h.1.symm, trail, htrails, trail]
  · -- only the record that the reference waits for may be new
    intro hs i r' key hi hr' hd
    obtain ⟨r₁, hg, hr₁ | ⟨hsame, -⟩⟩ := horigin i r' hr'
    · rw [hg.place] at hd
      exact hg.target (hs i r₁ key hr₁ hd)
    · exact absurd hsame hi
  · intro hs hn i r' key hr' hd
    obtain ⟨r₁, hg, hr₁ | ⟨-, hp⟩⟩ := horigin i r' hr'
    · rw [hg.place] at hd
      exact hg.target (hs i r₁ key hr₁ hd)
    · rw [hg.place, hp] at hd
      exact absurd hd (hn key)
  · intro key hd huniq
    refine ⟨push r, hlast, ?_⟩
    cases habs : r₀.absorbedBy with
    | none =>
      have hid : id = id₀ := by simp [id, habs]
      rw [hid, hr₀] at hr
      obtain rfl := Option.some.inj hr
      refine Or.inl ⟨habs, fun k hk => huniq k ?_⟩
      rw [← hplace]
      exact hk
    | some into =>
      have hid : id = into := by simp [id, habs]
      obtain ⟨r', hr', hfile, hext⟩ := hc₁.absorber id₀ r₀ into hr₀ habs
      rw [hid, hr'] at hr
      obtain rfl := Option.some.inj hr
      -- a declared name is only absorbed on account of its declaration
      have hslot := hc₁.represented id₀ r₀ into key hr₀ habs (by rw [hplace]; exact hd)
      refine Or.inr ?_
      rw [hid]
      change (a₁.follow ref into).representatives.get? (r'.place.file, r'.place.external, key) =
        some into
      rw [representatives_follow, hfile, hext]
      exact hslot

/-! ### Standing for a declaration -/

/-- The record of a synonym that is absorbed. -/
def absorbOne (a : Synonyms) (id into : SynonymId) : Synonyms :=
  a.modify id fun r => { r with absorbedBy := some into, pending := [] }

theorem revises_absorbOne {id into : SynonymId} {r : Synonym} (hr : a.get? id = some r)
    (habs : r.absorbedBy = none) : a.Revises (a.absorbOne id into) := by
  refine revises_modify fun r' hr' => ⟨rfl, fun h => h, ?_⟩
  intro i hi
  rw [hr] at hr'
  obtain rfl := Option.some.inj hr'
  rw [habs] at hi
  exact absurd hi (by simp)

/-- **Absorbing a synonym** keeps what holds between two steps, if the one that absorbs it
represents the declaration that the synonym stands for. -/
theorem Consistent.absorbOne (hc : a.Consistent declares) {id into : SynonymId} {r : Synonym}
    (hr : a.get? id = some r) (habs : r.absorbedBy = none) (htarget : r.target.isSome)
    (hslot : a.representatives.get? (r.place.file, r.place.external, key) = some into)
    (hown : ∀ k, declares r.place k → k = key) : (a.absorbOne id into).Consistent declares := by
  have hrev : a.Revises (a.absorbOne id into) := revises_absorbOne hr habs
  -- a record is an old one, or the one that was absorbed
  have hcases : ∀ i r', (a.absorbOne id into).get? i = some r' → a.get? i = some r' ∨
      (i = id ∧ r' = { r with absorbedBy := some into, pending := [] }) := by
    intro i r' hr'
    rw [Synonyms.absorbOne, get?_modify] at hr'
    split at hr'
    · next hid =>
      subst hid
      rw [hr] at hr'
      exact Or.inr ⟨rfl, (Option.some.inj hr').symm⟩
    · exact Or.inl hr'
  have hnew : ∀ i r₀, a.get? i = some r₀ → ∃ r', (a.absorbOne id into).get? i = some r' ∧
      r'.place.file = r₀.place.file ∧ r'.place.external = r₀.place.external := by
    intro i r₀ hr₀
    obtain ⟨r', hr', hg⟩ := hrev.record i r₀ hr₀
    exact ⟨r', hr', congrArg _ hg.place, congrArg _ hg.place⟩
  refine ⟨?_, ?_, ?_, ?_, ?_⟩
  · intro i r' j k hr' hi hd
    rcases hcases i r' hr' with hold | ⟨-, rfl⟩
    · exact hc.represented i r' j k hold hi hd
    · rw [← Option.some.inj hi, hown k hd]
      exact hslot
  · intro i r' j hr' hi
    rcases hcases i r' hr' with hold | ⟨-, rfl⟩
    · obtain ⟨r₁, hr₁, hfile, hext⟩ := hc.absorber i r' j hold hi
      obtain ⟨r₁', hr₁', hfile', hext'⟩ := hnew j r₁ hr₁
      exact ⟨r₁', hr₁', hfile'.trans hfile, hext'.trans hext⟩
    · obtain ⟨r₁, hr₁, hfile, hext⟩ := hc.representative _ into hslot
      obtain ⟨r₁', hr₁', hfile', hext'⟩ := hnew into r₁ hr₁
      rw [← Option.some.inj hi]
      exact ⟨r₁', hr₁', hfile'.trans hfile, hext'.trans hext⟩
  · intro slot i hs
    obtain ⟨r₁, hr₁, hfile, hext⟩ := hc.representative slot i hs
    obtain ⟨r₁', hr₁', hfile', hext'⟩ := hnew i r₁ hr₁
    exact ⟨r₁', hr₁', hfile'.trans hfile, hext'.trans hext⟩
  · intro i r' j hr' hi
    rcases hcases i r' hr' with hold | ⟨-, rfl⟩
    · exact hc.target i r' j hold hi
    · exact htarget
  · intro ref i hw
    -- nothing waits any more for what was absorbed
    obtain ⟨r', hr', href⟩ := hw
    rcases hcases i r' hr' with hold | ⟨-, rfl⟩
    · exact hrev.passed (hc.passed ref i ⟨r', hold, href⟩)
    · exact absurd href (by simp)

/-- The representative of a declaration, beside a synonym that is there. -/
theorem exists_representative (hc : a.Consistent declares) {id : SynonymId} {r : Synonym}
    (hr : a.get? id = some r) (key : Key) :
    ∃ b into first, a.representative id r.place key = (b, into) ∧ a.Revises b ∧
      b.Consistent declares ∧ b.records = a.records ∧ b.get? into = some first ∧
      b.representatives.get? (r.place.file, r.place.external, key) = some into ∧
      ∀ other, a.representatives.get? (r.place.file, r.place.external, key) = some other →
        into = other := by
  unfold representative
  dsimp only
  cases hslot : a.representatives.get? (r.place.file, r.place.external, key) with
  | some other =>
    obtain ⟨first, hfirst, -⟩ := hc.representative _ other hslot
    exact ⟨a, other, first, rfl, Revises.refl a, hc, rfl, hfirst, hslot,
      fun _ h => Option.some.inj h⟩
  | none =>
    -- the first synonym of a declaration in a file represents it from then on
    let b : Synonyms := { a with
      representatives := a.representatives.put (r.place.file, r.place.external, key) id }
    have hget : ∀ i, b.get? i = a.get? i := fun _ => rfl
    have hrev : a.Revises b := by
      refine ⟨⟨fun i r hr => ⟨r, hr, Synonym.Grows.refl r⟩, ?_, fun _ _ hi => hi⟩,
        rfl, fun i r hr => ⟨r, hr, Synonym.Grows.refl r⟩⟩
      intro slot i hs
      rw [Table.get?_put]
      split
      · next heq =>
        rw [← heq, hslot] at hs
        exact absurd hs (by simp)
      · exact hs
    refine ⟨b, id, r, rfl, hrev, ⟨fun i r' into k hr' hi hd => ?_, hc.absorber, fun slot i hs => ?_,
      hc.target, fun ref i hw => hrev.passed (hc.passed ref i hw)⟩, rfl, hr,
      Table.get?_put_self _ _ _, fun _ h => absurd h (by simp)⟩
    · exact hrev.representatives _ _ (hc.represented i r' into k hr' hi hd)
    · rw [Table.get?_put] at hs
      split at hs
      · next heq =>
        rw [← heq, ← Option.some.inj hs]
        exact ⟨r, hr, rfl, rfl⟩
      · exact hc.representative slot i hs

/-- **What it comes to that a synonym stands for a declaration**: some synonym represents it
now, and what waited for either of them is handed out. -/
structure Identified (declares : Waypoint → Key → Prop) (isResolved : RefId → Bool) (key : Key)
    (id : SynonymId) (a b : Synonyms) (ready : List RefId) : Prop where
  revises : a.Revises b
  consistent : b.Consistent declares
  target : ∀ r, b.get? id = some r → r.target.isSome
  fits : ∀ i, a.Fits declares key i → b.Fits declares key i
  unresolved : ∀ ref ∈ ready, isResolved ref = false
  passed : ∃ into, b.RepresentedBy id into ∧ ∀ ref ∈ ready, b.Passed ref into
  complete : a.Leads declares key id → ∀ ref, a.Waits ref id → isResolved ref = false → ref ∈ ready

/-- The one that represents the declaration takes in a synonym of its file, unless that was
absorbed before. -/
theorem exists_absorb (hc : a.Consistent declares) {id into : SynonymId} {r record first : Synonym}
    (hr : a.get? id = some r) (hfirst : a.get? into = some first) (htarget : r.target.isSome)
    (habs : record.absorbedBy = r.absorbedBy) (hpending : record.pending = r.pending)
    (hslot : a.representatives.get? (r.place.file, r.place.external, key) = some into)
    (hcase : into = id ∨ (r.absorbedBy = none ∧ ∀ k, declares r.place k → k = key) ∨
      r.absorbedBy = some into) :
    ∃ b events, (if into ≠ id ∧ record.absorbedBy.isNone then a.absorb id record into first
        else (a, [])) = (b, events) ∧ a.Revises b ∧ b.Consistent declares ∧
      (into = id ∨ ∃ r', b.get? id = some r' ∧ r'.absorbedBy = some into) ∧
      (∀ i r₀, i ≠ id → a.get? i = some r₀ →
        ∃ r', b.get? i = some r' ∧ r'.absorbedBy = r₀.absorbedBy) ∧
      (into = id ∨ r.absorbedBy = none → ∀ ref, a.Waits ref id → b.Waits ref into) := by
  rw [habs]
  by_cases hsame : into = id
  · rw [if_neg fun h => h.1 hsame]
    refine ⟨a, [], rfl, Revises.refl a, hc, Or.inl hsame, fun i r₀ _ hr₀ => ⟨r₀, hr₀, rfl⟩, ?_⟩
    intro _ ref hw
    rw [hsame]
    exact hw
  · rcases hcase with h | ⟨hnone, hown⟩ | hsome
    · exact absurd h hsame
    · rw [if_pos ⟨hsame, by rw [hnone]; rfl⟩, absorb]
      let add (r' : Synonym) : Synonym := { r' with pending := r'.pending ++ record.pending }
      have hrev : a.Revises (a.absorbOne id into) := revises_absorbOne hr hnone
      have hc' : (a.absorbOne id into).Consistent declares :=
        hc.absorbOne hr hnone htarget hslot hown
      have hget : (a.absorbOne id into).get? id =
          some { r with absorbedBy := some into, pending := [] } := by
        rw [absorbOne, get?_modify, if_pos rfl, hr]
        rfl
      have hinto : (a.absorbOne id into).get? into = some first := by
        rw [absorbOne, get?_modify, if_neg fun h => hsame h.symm, hfirst]
      have hadd : (a.absorbOne id into).Revises ((a.absorbOne id into).modify into add) :=
        revises_modify fun r' _ => ⟨rfl, fun h => h, fun _ h => h⟩
      refine ⟨_, _, rfl, hrev.trans hadd, hc'.modify (fun r' => ⟨rfl, fun h => h, fun _ h => h⟩)
        (fun _ => rfl) ?_, Or.inr ⟨{ r with absorbedBy := some into, pending := [] }, ?_, rfl⟩, ?_,
        ?_⟩
      · -- what waited for the synonym passed it, and by way of it the one that takes it in
        intro r' ref hr' href
        rcases List.mem_append.mp href with h | h
        · exact hc'.passed ref into ⟨r', hr', h⟩
        · rw [hpending] at h
          exact (hrev.passed (hc.passed ref id ⟨r, hr, h⟩)).trans
            (Relation.ReflTransGen.single ⟨_, hget, rfl⟩)
      · change ((a.absorbOne id into).modify into _).get? id = _
        rw [get?_modify, if_neg hsame]
        exact hget
      · intro i r₀ hi hr₀
        have hold : (a.absorbOne id into).get? i = some r₀ := by
          rw [absorbOne, get?_modify, if_neg fun h => hi h.symm, hr₀]
        change ∃ r', ((a.absorbOne id into).modify into _).get? i = some r' ∧ _
        rw [get?_modify]
        split
        · exact ⟨add r₀, by rw [hold]; rfl, rfl⟩
        · exact ⟨r₀, hold, rfl⟩
      · intro _ ref hw
        obtain ⟨r', hr', href⟩ := hw
        rw [hr] at hr'
        obtain rfl := Option.some.inj hr'
        refine ⟨add first, ?_, List.mem_append_right _ (by rw [hpending]; exact href)⟩
        change ((a.absorbOne id into).modify into _).get? into = _
        rw [get?_modify, if_pos rfl, hinto]
        rfl
    · rw [if_neg fun h => by rw [hsome] at h; exact absurd h.2 (by simp)]
      refine ⟨a, [], rfl, Revises.refl a, hc, Or.inr ⟨r, hr, hsome⟩,
        fun i r₀ _ hr₀ => ⟨r₀, hr₀, rfl⟩, ?_⟩
      intro h
      rcases h with h | h
      · exact absurd h hsame
      · rw [hsome] at h
        exact absurd h (by simp)

/-- **What becomes of a synonym** whose declaration is represented by `into`. -/
inductive Absorbs (a : Synonyms) (id : SynonymId) (record : Synonym) (into : SynonymId) :
    Synonyms → List Event → Prop where
  /-- It is absorbed. -/
  | taken {first : Synonym} (hfirst : a.get? into = some first) (hne : into ≠ id)
      (hnone : record.absorbedBy = none) :
      Absorbs a id record into (a.absorb id record into first).1 (a.absorb id record into first).2
  /-- It represents the declaration itself, or was absorbed before. -/
  | kept (h : ∀ first, a.get? into = some first → into = id ∨ record.absorbedBy ≠ none) :
      Absorbs a id record into a []

/-- **What it comes to that a synonym stands for a declaration**: it is marked, it is looked for
what represents the declaration, which absorbs it, and what waits there is handed out. -/
inductive Identifying (a : Synonyms) (isResolved : RefId → Bool) (id : SynonymId) (key : Key) :
    Synonyms × List RefId × List Event → Prop where
  | unknown (hid : a.get? id = none) : Identifying a isResolved id key (a, [], [])
  | known {record : Synonym} {a₂ a₃ : Synonyms} {into : SynonymId} {events : List Event}
      (hid : a.get? id = some record)
      (hrep : (a.modify id fun r => { r with target := some key }).representative id record.place
        key = (a₂, into))
      (habsorbs : Absorbs a₂ id record into a₃ events) :
      Identifying a isResolved id key (a₃.modify into fun r => { r with pending := [] },
        (((a₃.get? into).map (·.pending)).getD []).filter fun r => !isResolved r, events)

theorem identifying {isResolved : RefId → Bool} {id : SynonymId}
    {found : Synonyms × List RefId × List Event} (h : a.identify isResolved id key = found) :
    Identifying a isResolved id key found := by
  subst h
  unfold identify
  split
  · next hid => exact .unknown hid
  · next record hid =>
    dsimp only
    generalize hrep : (a.modify id fun r => { r with target := some key }).representative id
      record.place key = represented
    obtain ⟨a₂, into⟩ := represented
    dsimp only
    split
    · next first hfirst =>
      split
      · next htaken =>
          exact .known hid hrep (.taken hfirst htaken.1 (Option.isNone_iff_eq_none.mp htaken.2))
      · next hkept =>
        refine .known hid hrep (.kept fun _ _ => ?_)
        rw [Decidable.or_iff_not_imp_left]
        exact fun hne hnone => hkept ⟨hne, Option.isNone_iff_eq_none.mpr hnone⟩
    · next hnone =>
      refine .known hid hrep (.kept fun first hfirst => ?_)
      rw [hnone] at hfirst
      exact absurd hfirst (by simp)

/-- What stands for a declaration, one step after the other. -/
theorem identify_eq {isResolved : RefId → Bool} {id into : SynonymId} {record first : Synonym}
    {a₂ a₃ : Synonyms} {events : List Event} (hrecord : a.get? id = some record)
    (hrep : (a.modify id fun r => { r with target := some key }).representative id record.place
      key = (a₂, into))
    (hfirst : a₂.get? into = some first)
    (habsorb : (if into ≠ id ∧ record.absorbedBy.isNone then a₂.absorb id record into first
      else (a₂, [])) = (a₃, events)) :
    a.identify isResolved id key = (a₃.modify into fun r => { r with pending := [] },
      (((a₃.get? into).map (·.pending)).getD []).filter fun r => !isResolved r, events) := by
  unfold identify
  rw [hrecord]
  dsimp only
  rw [hrep]
  dsimp only
  rw [hfirst]
  dsimp only
  rw [habsorb]

/-- Where a synonym fits, it represents the declaration itself, can still be absorbed, or was
absorbed by what represents it. -/
theorem Fits.cases {id into : SynonymId} {record : Synonym} (hfits : a.Fits declares key id)
    (hrecord : a.get? id = some record)
    (hother : ∀ other, a.representatives.get? (record.place.file, record.place.external, key) =
      some other → into = other) :
    into = id ∨ (record.absorbedBy = none ∧ ∀ k, declares record.place k → k = key) ∨
      record.absorbedBy = some into := by
  rcases hfits with ⟨r, hr, ⟨hnone, hown⟩ | hrep⟩ | ⟨r, other, hr, habs, hrep⟩
  · rw [hrecord] at hr
    obtain rfl := Option.some.inj hr
    exact Or.inr (Or.inl ⟨hnone, hown⟩)
  · rw [hrecord] at hr
    obtain rfl := Option.some.inj hr
    exact Or.inl (hother id hrep)
  · rw [hrecord] at hr
    obtain rfl := Option.some.inj hr
    rw [hother other hrep]
    exact Or.inr (Or.inr habs)

/-- A synonym that leads to a declaration represents it, or was not absorbed so far. -/
theorem Leads.cases {id into : SynonymId} {record : Synonym} (hleads : a.Leads declares key id)
    (hrecord : a.get? id = some record)
    (hother : ∀ other, a.representatives.get? (record.place.file, record.place.external, key) =
      some other → into = other) : into = id ∨ record.absorbedBy = none := by
  obtain ⟨r, hr, ⟨hnone, -⟩ | hrep⟩ := hleads
  · obtain rfl := Option.some.inj (hrecord.symm.trans hr)
    exact Or.inr hnone
  · obtain rfl := Option.some.inj (hrecord.symm.trans hr)
    exact Or.inl (hother id hrep)

/-- What represents a declaration fits, and what was absorbed by it. -/
theorem Fits.of_representative {id into : SynonymId} {record : Synonym}
    (hrecord : a.get? id = some record)
    (hslot : a.representatives.get? (record.place.file, record.place.external, key) = some into)
    (h : into = id ∨ record.absorbedBy = some into) : a.Fits declares key id := by
  rcases h with rfl | habs
  · exact Or.inl ⟨record, hrecord, Or.inr hslot⟩
  · exact Or.inr ⟨record, into, hrecord, habs, hslot⟩

/-- A synonym that is not absorbed meanwhile fits as before. -/
theorem Fits.revise {b : Synonyms} {i : SynonymId} (hfits : a.Fits declares key i)
    (hrev : a.Revises b)
    (hkeep : ∀ r, a.get? i = some r → ∃ r', b.get? i = some r' ∧ r'.absorbedBy = r.absorbedBy) :
    b.Fits declares key i := by
  rcases hfits with ⟨r, hr, hcase⟩ | ⟨r, other, hr, habs, hrep⟩
  · obtain ⟨r', hr', hg⟩ := hrev.record i r hr
    obtain ⟨r'', hr'', habs⟩ := hkeep r hr
    obtain rfl := Option.some.inj (hr''.symm.trans hr')
    refine Or.inl ⟨r'', hr', ?_⟩
    rw [hg.place, habs]
    exact hcase.imp_right fun h => hrev.representatives _ _ h
  · obtain ⟨r', hr', hg⟩ := hrev.record i r hr
    refine Or.inr ⟨r', other, hr', hg.absorbedBy other habs, ?_⟩
    rw [hg.place]
    exact hrev.representatives _ _ hrep

/-- **What waited for a synonym is handed out** when the synonym is found to stand for a
declaration that it leads to. -/
theorem identified_identify (hc : a.Consistent declares) (isResolved : RefId → Bool)
    {id : SynonymId} (hfits : a.Fits declares key id) :
    ∃ b ready events, a.identify isResolved id key = (b, ready, events) ∧
      Identified declares isResolved key id a b ready := by
  obtain ⟨record, hrecord⟩ : ∃ record, a.get? id = some record := by
    rcases hfits with ⟨r, hr, -⟩ | ⟨r, -, hr, -⟩ <;> exact ⟨r, hr⟩
  let mark (r : Synonym) : Synonym := { r with target := some key }
  let clear (r : Synonym) : Synonym := { r with pending := [] }
  have hmark : ∀ r : Synonym, r.Grows (mark r) := fun r => ⟨rfl, fun _ => rfl, fun _ h => h⟩
  have hrev₁ : a.Revises (a.modify id mark) := revises_modify fun r _ => hmark r
  have hc₁ : (a.modify id mark).Consistent declares :=
    hc.modify hmark (fun _ => rfl) fun r ref hr href => hc.passed ref id ⟨r, hr, href⟩
  have hget₁ : (a.modify id mark).get? id = some (mark record) := by
    rw [get?_modify, if_pos rfl, hrecord]
    rfl
  obtain ⟨a₂, into, first, heq₂, hrev₂, hc₂, hrecords, hfirst, hslot, hother⟩ :=
    exists_representative hc₁ hget₁ key
  have hget₂ : ∀ i, a₂.get? i = (a.modify id mark).get? i := fun i => by rw [get?, get?, hrecords]
  have hcase := hfits.cases hrecord hother
  obtain ⟨a₃, events, heq₃, hrev₃, hc₃, habsorbed, hkeep, hwaits⟩ :=
    exists_absorb hc₂ (by rw [hget₂, hget₁]) hfirst rfl
      (show record.absorbedBy = (mark record).absorbedBy from rfl) rfl hslot hcase
  obtain ⟨first₃, hfirst₃, -⟩ := hrev₃.record into first hfirst
  let b := a₃.modify into clear
  have hrevb : a₃.Revises b := revises_modify fun r _ => ⟨rfl, fun h => h, fun _ h => h⟩
  have hcb : b.Consistent declares :=
    hc₃.modify (fun r => ⟨rfl, fun h => h, fun _ h => h⟩) (fun _ => rfl) fun r ref _ href =>
      absurd href List.not_mem_nil
  have hidentify : a.identify isResolved id key =
      (b, first₃.pending.filter fun r => !isResolved r, events) := by
    rw [identify_eq hrecord heq₂ hfirst heq₃, hfirst₃]
    rfl
  have hrev : a.Revises b := ((hrev₁.trans hrev₂).trans hrev₃).trans hrevb
  have hrevmark : (a.modify id mark).Revises b := (hrev₂.trans hrev₃).trans hrevb
  -- the synonym is represented by what stands in the slot of its declaration
  have hslotb : b.representatives.get? (record.place.file, record.place.external, key) =
      some into := hrevb.representatives _ _ (hrev₃.representatives _ _ hslot)
  have habsb : into = id ∨ ∃ r', b.get? id = some r' ∧ r'.absorbedBy = some into := by
    refine habsorbed.imp_right ?_
    rintro ⟨r', hr', habs⟩
    obtain ⟨r'', hr'', hg⟩ := hrevb.record id r' hr'
    exact ⟨r'', hr'', hg.absorbedBy into habs⟩
  refine ⟨b, _, events, hidentify, hrev, hcb, ?_, ?_, ?_, ⟨into, ?_, ?_⟩, ?_⟩
  · intro r hr
    obtain ⟨r₁, hr₁, hg⟩ := hrevmark.origin id r hr
    rw [hget₁] at hr₁
    obtain rfl := Option.some.inj hr₁
    exact hg.target rfl
  · intro i hi
    by_cases hsame : i = id
    · subst hsame
      obtain ⟨r, hr, hg⟩ := hrev.record i record hrecord
      refine Fits.of_representative hr (by rw [hg.place, hslotb]) (habsb.imp_right ?_)
      rintro ⟨r', hr', habs⟩
      rwa [Option.some.inj (hr.symm.trans hr')]
    · refine hi.revise hrev ?_
      intro r hr
      have hr₂ : a₂.get? i = some r := by
        rw [hget₂, get?_modify, if_neg fun h => hsame h.symm, hr]
      obtain ⟨r₃, hr₃, habs₃⟩ := hkeep i r hsame hr₂
      have hlast : b.get? i = if into = i then some (clear r₃) else some r₃ := by
        rw [get?_modify, hr₃]
        rfl
      split at hlast
      · exact ⟨clear r₃, hlast, habs₃⟩
      · exact ⟨r₃, hlast, habs₃⟩
  · intro ref href
    simpa using (List.mem_filter.mp href).2
  · rcases habsb with rfl | ⟨r', hr', habs⟩
    · exact Relation.ReflTransGen.refl
    · exact Relation.ReflTransGen.single ⟨r', hr', habs⟩
  · intro ref href
    exact hrevb.passed (hc₃.passed ref into ⟨first₃, hfirst₃, (List.mem_filter.mp href).1⟩)
  · intro hleads ref hw hres
    have hnone : into = id ∨ record.absorbedBy = none := hleads.cases hrecord hother
    -- what waited for the synonym now waits for what took it in
    have hw₂ : a₂.Waits ref id := by
      obtain ⟨r, hr, href⟩ := hw
      rw [hrecord] at hr
      obtain rfl := Option.some.inj hr
      exact ⟨mark record, by rw [hget₂, hget₁], href⟩
    obtain ⟨r, hr, href⟩ := hwaits hnone ref hw₂
    rw [hfirst₃] at hr
    obtain rfl := Option.some.inj hr
    exact List.mem_filter.mpr ⟨href, by simp [hres]⟩

end Synonyms

end TypeGraft
