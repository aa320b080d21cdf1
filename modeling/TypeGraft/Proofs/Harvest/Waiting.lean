import TypeGraft.Proofs.Harvest.Synonyms

/-!
# No reference is lost while it waits

References wait for synonyms, and synonyms are absorbed by others while they wait. Whatever is
done with them, in whatever order (`TypeGraft.Synonyms.Deed`), the references that wait are those
that came to some place and are not resolved, each of them listed once.

What is done is written down in a `TypeGraft.Synonyms.Ledger`, with the references that came and
with those that are resolved. A reference may wait for several synonyms, and what is handed out
for one of them is resolved for all. Only one thing is asked for: that no synonym is found to
stand for one declaration, and later for another one (`TypeGraft.Synonyms.Steady`).

Two things are kept by all that is done.

* `TypeGraft.Synonyms.Unified`: a synonym that was absorbed is empty, and its absorber represents
  the declaration. A synonym that was not absorbed, and stands for a declaration, represents the
  declaration itself. The table of representatives therefore tells which synonyms are left
  (`TypeGraft.Synonyms.Unified.unique`).
* `TypeGraft.Synonyms.Ledger.Kept`: what came and is not resolved waits for something, and nothing
  else waits.

Both rest on what becomes of the records when a synonym is found to stand for a declaration
(`TypeGraft.Synonyms.Unified.exists_identify`): the synonym and its representative are emptied,
the first one is absorbed by the second one, and no other record is changed
(`TypeGraft.Synonyms.identified`).
-/

namespace TypeGraft

/-- Where the representative of a declaration is entered, for the names beside this one. -/
def Synonym.slot (r : Synonym) (key : Key) : String × Bool × Key :=
  (r.place.file, r.place.external, key)

namespace Synonyms

variable {a b : Synonyms} {asked : SynonymId → Key → Prop} {id into : SynonymId} {key : Key}

/-- **What holds of the records**, if `asked` says which declarations they were found to stand
for. -/
structure Unified (asked : SynonymId → Key → Prop) (a : Synonyms) : Prop where
  target : ∀ id r key, a.get? id = some r → r.target = some key → asked id key
  absorbed : ∀ id r into, a.get? id = some r → r.absorbedBy = some into →
    r.pending = [] ∧ ∃ key, r.target = some key ∧ a.representatives.get? (r.slot key) = some into
  single : ∀ id r key, a.get? id = some r → r.absorbedBy = none → r.target = some key →
    a.representatives.get? (r.slot key) = some id
  representative : ∀ slot id, a.representatives.get? slot = some id →
    ∃ r key, a.get? id = some r ∧ r.absorbedBy = none ∧ r.target = some key ∧ r.slot key = slot

namespace Unified

theorem empty : Unified asked Synonyms.empty := by
  refine ⟨fun id r key h => ?_, fun id r into h => ?_, fun id r key h => ?_, fun slot id h => ?_⟩
  all_goals simp [Synonyms.empty, get?] at h

theorem mono {more : SynonymId → Key → Prop} (h : a.Unified asked)
    (hmore : ∀ id key, asked id key → more id key) : a.Unified more :=
  ⟨fun id r key hr ht => hmore id key (h.target id r key hr ht), h.absorbed, h.single,
    h.representative⟩

/-- Records that are the same for the synonyms that are absorbed or stand for something. -/
theorem of_records (h : a.Unified asked) (hrep : b.representatives = a.representatives)
    (hold : ∀ i r, a.get? i = some r → ∃ r', b.get? i = some r' ∧ r'.place = r.place ∧
      r'.target = r.target ∧ r'.absorbedBy = r.absorbedBy)
    (hnew : ∀ i r', b.get? i = some r' → r'.target = none ∧ r'.absorbedBy = none ∨
      ∃ r, a.get? i = some r ∧ r'.place = r.place ∧ r'.target = r.target ∧
        r'.absorbedBy = r.absorbedBy ∧ (r.absorbedBy.isSome → r'.pending = r.pending)) :
    b.Unified asked := by
  have hslot : ∀ {r r' : Synonym}, r'.place = r.place → ∀ key, r'.slot key = r.slot key :=
    fun hplace key => by rw [Synonym.slot, hplace, Synonym.slot]
  refine ⟨fun i r' key hr' ht => ?_, fun i r' into hr' hi => ?_, fun i r' key hr' hn ht => ?_,
    fun slot i hs => ?_⟩
  · obtain ⟨hnone, -⟩ | ⟨r, hr, -, htarget, -⟩ := hnew i r' hr'
    · rw [hnone] at ht
      cases ht
    · exact h.target i r key hr (htarget ▸ ht)
  · obtain ⟨-, hnone⟩ | ⟨r, hr, hplace, htarget, habs, hpending⟩ := hnew i r' hr'
    · rw [hnone] at hi
      cases hi
    · rw [habs] at hi
      obtain ⟨hempty, key, hkey, hrepr⟩ := h.absorbed i r into hr hi
      rw [hi] at hpending
      refine ⟨(hpending rfl).trans hempty, key, htarget.trans hkey, ?_⟩
      rw [hrep, hslot hplace, hrepr]
  · obtain ⟨hnone, -⟩ | ⟨r, hr, hplace, htarget, habs, -⟩ := hnew i r' hr'
    · rw [hnone] at ht
      cases ht
    · rw [hrep, hslot hplace]
      exact h.single i r key hr (habs ▸ hn) (htarget ▸ ht)
  · rw [hrep] at hs
    obtain ⟨r, key, hr, hn, ht, hkey⟩ := h.representative slot i hs
    obtain ⟨r', hr', hplace, htarget, habs⟩ := hold i r hr
    exact ⟨r', key, hr', habs.trans hn, htarget.trans ht, (hslot hplace key).trans hkey⟩

theorem add (h : a.Unified asked) (place : Waypoint) (line : Nat) :
    (a.add place line).Unified asked := by
  refine h.of_records rfl (fun i r hr => ?_) fun i r' hr' => ?_
  · exact ⟨r, get?_add_of_get? hr place line, rfl, rfl, rfl⟩
  · rw [get?_add] at hr'
    split at hr'
    · rw [← Option.some.inj hr']
      exact Or.inl ⟨rfl, rfl⟩
    · exact Or.inr ⟨r', hr', rfl, rfl, rfl, fun _ => rfl⟩

theorem follow (h : a.Unified asked) (ref : RefId) (id : SynonymId) :
    (a.follow ref id).Unified asked := by
  refine h.of_records (representatives_follow a ref id) (fun i r hr => ?_) fun i r' hr' => ?_
  · exact ⟨r, by rw [get?_follow, hr], rfl, rfl, rfl⟩
  · rw [get?_follow] at hr'
    exact Or.inr ⟨r', hr', rfl, rfl, rfl, fun _ => rfl⟩

/-- A reference comes to wait for a synonym that was not absorbed. -/
theorem push (h : a.Unified asked) {r : Synonym} (hr : a.get? id = some r)
    (hn : r.absorbedBy = none) (ref : RefId) :
    (a.modify id fun r => { r with pending := r.pending ++ [ref] }).Unified asked := by
  refine h.of_records rfl (fun i r₀ hr₀ => ?_) fun i r' hr' => ?_
  · rw [get?_modify, hr₀]
    split
    · exact ⟨_, rfl, rfl, rfl, rfl⟩
    · exact ⟨r₀, rfl, rfl, rfl, rfl⟩
  · rw [get?_modify] at hr'
    split at hr'
    · next hid =>
      subst hid
      rw [hr] at hr'
      rw [← Option.some.inj hr']
      exact Or.inr ⟨r, hr, rfl, rfl, rfl, fun hsome => by rw [hn] at hsome; cases hsome⟩
    · exact Or.inr ⟨r', hr', rfl, rfl, rfl, fun _ => rfl⟩

/-- **One synonym is left** of those in a file that stand for one declaration. -/
theorem unique (h : a.Unified asked) {i j : SynonymId} {r r' : Synonym} (hr : a.get? i = some r)
    (hr' : a.get? j = some r') (hn : r.absorbedBy = none) (hn' : r'.absorbedBy = none)
    (ht : r.target = some key) (ht' : r'.target = some key) (hslot : r.slot key = r'.slot key) :
    i = j := by
  have hi := h.single i r key hr hn ht
  rw [hslot, h.single j r' key hr' hn' ht'] at hi
  exact (Option.some.inj hi).symm

end Unified

/-! ### Standing for a declaration -/

/-- **What becomes of a record** when the synonym `id` is found to stand for a declaration that
`into` represents. -/
def identified (key : Key) (id into i : SynonymId) (r : Synonym) : Synonym :=
  if i = into then { r with target := some key, pending := [] }
  else if i = id then { r with target := some key, absorbedBy := some into, pending := [] }
  else r

section Identified

variable (key : Key) (id into : SynonymId) (r : Synonym)

theorem identified_into :
    identified key id into into r = { r with target := some key, pending := [] } := if_pos rfl

theorem identified_self (h : id ≠ into) : identified key id into id r =
    { r with target := some key, absorbedBy := some into, pending := [] } :=
  (if_neg h).trans (if_pos rfl)

theorem identified_of_ne {i : SynonymId} (hinto : i ≠ into) (hid : i ≠ id) :
    identified key id into i r = r := (if_neg hinto).trans (if_neg hid)

end Identified

/-- **The synonym `into` takes in** the synonym `id`, or is this one itself. -/
structure TakesIn (a : Synonyms) (key : Key) (id into : SynonymId) (r first : Synonym) : Prop where
  record : a.get? into = some first
  single : first.absorbedBy = none
  slot : first.slot key = r.slot key
  target : into = id ∨ first.target = some key
  known : ∀ other, a.representatives.get? (r.slot key) = some other → other = into

/-- The records are known if those of the two synonyms are, and if no other one was changed. -/
theorem TakesIn.get?_eq {r first : Synonym} (h : a.TakesIn key id into r first)
    (hr : a.get? id = some r)
    (hinto : b.get? into = some (identified key id into into first))
    (hid : b.get? id = some (identified key id into id r))
    (hother : ∀ i, i ≠ into → i ≠ id → b.get? i = a.get? i) (i : SynonymId) :
    b.get? i = (a.get? i).map (identified key id into i) := by
  by_cases hi : i = into
  · rw [hi, hinto, h.record, Option.map_some]
  · by_cases hi' : i = id
    · rw [hi', hid, hr, Option.map_some]
    · rw [hother i hi hi']
      cases a.get? i with
      | none => rfl
      | some r => rw [Option.map_some, identified_of_ne key id into r hi hi']

/-- **The synonym `id` was found** to stand for a declaration, which `into` represents. -/
structure Identifies (a : Synonyms) (key : Key) (id into : SynonymId) (r first : Synonym)
    (b : Synonyms) : Prop extends TakesIn a key id into r first where
  representatives : ∀ slot, b.representatives.get? slot =
    if r.slot key = slot then some into else a.representatives.get? slot
  records : ∀ i, b.get? i = (a.get? i).map (identified key id into i)

theorem representative_of_some {place : Waypoint} {other : SynonymId}
    (h : a.representatives.get? (place.file, place.external, key) = some other) :
    a.representative id place key = (a, other) := by
  rw [representative, h]

theorem representative_of_none {place : Waypoint}
    (h : a.representatives.get? (place.file, place.external, key) = none) :
    a.representative id place key = ({ a with
      representatives := a.representatives.put (place.file, place.external, key) id }, id) := by
  rw [representative, h]

namespace Unified

variable {r first : Synonym}

/-- What absorbed a synonym represents the declaration that the synonym is found to stand for
again. -/
theorem absorber (h : a.Unified asked) (hr : a.get? id = some r) (hkey : ∀ k, asked id k → k = key)
    (habs : r.absorbedBy = some into) :
    r.pending = [] ∧ r.target = some key ∧ a.representatives.get? (r.slot key) = some into := by
  obtain ⟨hempty, k, hk, hslot⟩ := h.absorbed id r into hr habs
  obtain rfl := hkey k (h.target id r k hr hk)
  exact ⟨hempty, hk, hslot⟩

theorem exists_takesIn (h : a.Unified asked) (hr : a.get? id = some r)
    (hkey : ∀ k, asked id k → k = key) :
    ∃ a₂ into first, a.TakesIn key id into r first ∧
      (a.modify id fun r => { r with target := some key }).representative id r.place key =
        (a₂, into) ∧
      a₂.records = (a.modify id fun r => { r with target := some key }).records ∧
      ∀ slot, a₂.representatives.get? slot =
        if r.slot key = slot then some into else a.representatives.get? slot := by
  cases hslot : a.representatives.get? (r.slot key) with
  | none =>
    have hn : r.absorbedBy = none := by
      cases habs : r.absorbedBy with
      | none => rfl
      | some into =>
        rw [(h.absorber hr hkey habs).2.2] at hslot
        cases hslot
    refine ⟨_, id, r, ⟨hr, hn, rfl, Or.inl rfl, fun other hother => ?_⟩,
      representative_of_none hslot, rfl, fun slot => Table.get?_put _ _ slot _⟩
    rw [hslot] at hother
    cases hother
  | some into =>
    obtain ⟨first, k, hfirst, hn, htarget, hfirstSlot⟩ := h.representative _ into hslot
    obtain rfl : k = key := congrArg (·.2.2) hfirstSlot
    refine ⟨_, into, first, ⟨hfirst, hn, hfirstSlot, Or.inr htarget, fun other hother => ?_⟩,
      representative_of_some hslot, rfl, fun slot => ?_⟩
    · rw [hslot] at hother
      exact (Option.some.inj hother).symm
    · split
      · next heq =>
        rw [← heq]
        exact hslot
      · rfl

/-- **What it comes to that a synonym stands for a declaration.** Some synonym represents the
declaration, perhaps this one; both are emptied, and what waited for them and is not resolved is
handed out. -/
theorem exists_identify (h : a.Unified asked) (isResolved : RefId → Bool) (hr : a.get? id = some r)
    (hkey : ∀ k, asked id k → k = key) :
    ∃ b into first ready events, a.identify isResolved id key = (b, ready, events) ∧
      a.Identifies key id into r first b ∧
      ∀ ref, ref ∈ ready ↔ (ref ∈ first.pending ∨ ref ∈ r.pending) ∧ isResolved ref = false := by
  obtain ⟨a₂, into, first, htakes, hrep, hrecords, hslots⟩ := h.exists_takesIn hr hkey
  have hget : ∀ i, a₂.get? i =
      if id = i then (a.get? i).map fun r => { r with target := some key } else a.get? i := by
    intro i
    rw [← get?_modify, get?, hrecords, get?]
  have hget_ne : ∀ i, i ≠ id → a₂.get? i = a.get? i :=
    fun i hi => by rw [hget, if_neg (Ne.symm hi)]
  have hget_id : a₂.get? id = some { r with target := some key } := by
    rw [hget, if_pos rfl, hr]
    rfl
  by_cases hsame : into = id
  · -- it represents the declaration itself
    subst hsame
    obtain rfl := Option.some.inj (hr.symm.trans htakes.record)
    refine ⟨_, into, r, _, _, identify_eq hr hrep hget_id (if_neg fun hne => hne.1 rfl),
      ⟨htakes, hslots, htakes.get?_eq hr ?_ ?_ fun i hi _ => ?_⟩, fun ref => ?_⟩
    · rw [get?_modify, if_pos rfl, hget_id, identified_into]
      rfl
    · rw [get?_modify, if_pos rfl, hget_id, identified_into]
      rfl
    · rw [get?_modify, if_neg (Ne.symm hi), hget_ne i hi]
    · simp [hget_id]
  · have hfirst : a₂.get? into = some first := by rw [hget_ne into hsame, htakes.record]
    have htarget : first.target = some key := htakes.target.resolve_left hsame
    cases habs : r.absorbedBy with
    | none =>
      -- it is absorbed now
      let given (r' : Synonym) : Synonym := { r' with absorbedBy := some into, pending := [] }
      let taking (r' : Synonym) : Synonym := { r' with pending := r'.pending ++ r.pending }
      obtain ⟨events, habsorb⟩ : ∃ events, a₂.absorb id r into first =
        ((a₂.modify id given).modify into taking, events) := ⟨_, rfl⟩
      have htaken : ((a₂.modify id given).modify into taking).get? into = some (taking first) := by
        rw [get?_modify, if_pos rfl, get?_modify, if_neg (Ne.symm hsame), hfirst]
        rfl
      refine ⟨_, into, first, _, events, identify_eq hr hrep hfirst
        ((if_pos ⟨hsame, by rw [habs]; rfl⟩).trans habsorb), ⟨htakes, hslots,
        htakes.get?_eq hr ?_ ?_ fun i hi hid => ?_⟩, fun ref => ?_⟩
      · rw [get?_modify, if_pos rfl, htaken, identified_into, ← htarget]
        rfl
      · rw [get?_modify, if_neg hsame, get?_modify, if_neg hsame, get?_modify, if_pos rfl, hget_id,
          identified_self key id into r (Ne.symm hsame)]
        rfl
      · rw [get?_modify, if_neg (Ne.symm hi), get?_modify, if_neg (Ne.symm hi), get?_modify,
          if_neg (Ne.symm hid), hget_ne i hid]
      · simp [htaken, taking, or_and_right]
    | some j =>
      -- it was absorbed before
      obtain ⟨hempty, htarget', hj⟩ := h.absorber hr hkey habs
      obtain rfl := htakes.known j hj
      refine ⟨_, j, first, _, _, identify_eq hr hrep hfirst
        (if_neg fun hne => by simp [habs] at hne), ⟨htakes, hslots,
        htakes.get?_eq hr ?_ ?_ fun i hi hid => ?_⟩, fun ref => ?_⟩
      · rw [get?_modify, if_pos rfl, hfirst, identified_into, ← htarget]
        rfl
      · rw [get?_modify, if_neg hsame, hget_id, identified_self key id j r (Ne.symm hsame), ← habs,
          ← hempty]
      · rw [get?_modify, if_neg (Ne.symm hi), hget_ne i hid]
      · simp [hfirst, hempty]

end Unified

namespace Identifies

variable {r first : Synonym}

theorem get?_into (h : a.Identifies key id into r first b) :
    b.get? into = some { first with target := some key, pending := [] } := by
  rw [h.records, h.record, Option.map_some, identified_into]

/-- A record is that of the representative, that of the synonym that it takes in, or an old one. -/
theorem cases (h : a.Identifies key id into r first b) (hr : a.get? id = some r) {i : SynonymId}
    {r' : Synonym} (hr' : b.get? i = some r') :
    i = into ∧ r' = { first with target := some key, pending := [] } ∨
      i = id ∧ r' = { r with target := some key, absorbedBy := some into, pending := [] } ∨
      i ≠ into ∧ i ≠ id ∧ a.get? i = some r' := by
  by_cases hi : i = into
  · rw [hi, h.get?_into] at hr'
    exact Or.inl ⟨hi, (Option.some.inj hr').symm⟩
  · rw [h.records] at hr'
    by_cases hid : i = id
    · subst hid
      rw [hr, Option.map_some, identified_self key i into r hi] at hr'
      exact Or.inr (Or.inl ⟨rfl, (Option.some.inj hr').symm⟩)
    · obtain ⟨r₀, hr₀, hsame⟩ := Option.map_eq_some_iff.mp hr'
      rw [identified_of_ne key id into r₀ hi hid] at hsame
      exact Or.inr (Or.inr ⟨hi, hid, by rw [hr₀, hsame]⟩)

/-- A representative stays one. -/
theorem stays (h : a.Identifies key id into r first b) {slot : String × Bool × Key} {i : SynonymId}
    (hs : a.representatives.get? slot = some i) : b.representatives.get? slot = some i := by
  rw [h.representatives]
  split
  · next heq => rw [h.known i (heq ▸ hs)]
  · exact hs

/-- **Only the two synonyms are emptied.** -/
theorem waits_iff (h : a.Identifies key id into r first b) (hr : a.get? id = some r) {ref : RefId}
    {i : SynonymId} : b.Waits ref i ↔ a.Waits ref i ∧ i ≠ into ∧ i ≠ id := by
  constructor
  · rintro ⟨r', hr', href⟩
    obtain ⟨-, rfl⟩ | ⟨-, rfl⟩ | ⟨hi, hid, hold⟩ := h.cases hr hr'
    · cases href
    · cases href
    · exact ⟨⟨r', hold, href⟩, hi, hid⟩
  · rintro ⟨⟨r', hr', href⟩, hi, hid⟩
    refine ⟨r', ?_, href⟩
    rw [h.records, hr', Option.map_some, identified_of_ne key id into r' hi hid]

/-- **What holds of the records** holds when a synonym is found to stand for a declaration, if it
was not found to stand for another one. -/
theorem unified (h : a.Identifies key id into r first b) (hu : a.Unified asked)
    (hr : a.get? id = some r) (hkey : ∀ k, asked id k → k = key) :
    b.Unified fun i k => asked i k ∨ i = id ∧ k = key := by
  refine ⟨fun i r' k hr' ht => ?_, fun i r' j hr' hj => ?_, fun i r' k hr' hn ht => ?_,
    fun slot i hs => ?_⟩
  · obtain ⟨rfl, rfl⟩ | ⟨rfl, rfl⟩ | ⟨-, -, hold⟩ := h.cases hr hr'
    · obtain rfl := Option.some.inj ht
      exact h.target.symm.imp (hu.target i first key h.record) fun hsame => ⟨hsame, rfl⟩
    · exact Or.inr ⟨rfl, (Option.some.inj ht).symm⟩
    · exact Or.inl (hu.target i r' k hold ht)
  · obtain ⟨rfl, rfl⟩ | ⟨rfl, rfl⟩ | ⟨-, -, hold⟩ := h.cases hr hr'
    · exact absurd (h.single.symm.trans hj) (by simp)
    · rw [← Option.some.inj hj]
      exact ⟨rfl, key, rfl, (h.representatives _).trans (if_pos rfl)⟩
    · obtain ⟨hempty, k, hk, hslot⟩ := hu.absorbed i r' j hold hj
      exact ⟨hempty, k, hk, h.stays hslot⟩
  · obtain ⟨rfl, rfl⟩ | ⟨rfl, rfl⟩ | ⟨-, -, hold⟩ := h.cases hr hr'
    · obtain rfl := Option.some.inj ht
      exact (h.representatives _).trans (if_pos h.slot.symm)
    · cases hn
    · exact h.stays (hu.single i r' k hold hn ht)
  · rw [h.representatives] at hs
    split at hs
    · next heq =>
      rw [← Option.some.inj hs]
      exact ⟨_, key, h.get?_into, h.single, rfl, h.slot.trans heq⟩
    · next hne =>
      -- it is neither of the two, since it represents another declaration
      obtain ⟨r₀, k, hr₀, hn, ht, rfl⟩ := hu.representative slot i hs
      have hid : i ≠ id := by
        rintro rfl
        obtain rfl := Option.some.inj (hr.symm.trans hr₀)
        exact hne (by rw [hkey k (hu.target i r k hr ht)])
      have hinto : i ≠ into := by
        rintro rfl
        obtain rfl := Option.some.inj (h.record.symm.trans hr₀)
        obtain rfl := Option.some.inj (ht.symm.trans (h.target.resolve_left hid))
        exact hne h.slot.symm
      refine ⟨r₀, k, ?_, hn, ht, rfl⟩
      rw [h.records, hr₀, Option.map_some, identified_of_ne key id into r₀ hinto hid]

end Identifies

/-! ### Coming to a place -/

theorem waits_follow {ref x : RefId} {i : SynonymId} :
    (a.follow ref id).Waits x i ↔ a.Waits x i := by
  unfold Waits
  simp only [get?_follow]

theorem waits_push {r : Synonym} (hr : a.get? id = some r) {ref x : RefId} {i : SynonymId} :
    (a.modify id fun r => { r with pending := r.pending ++ [ref] }).Waits x i ↔
      a.Waits x i ∨ x = ref ∧ i = id := by
  unfold Waits
  simp only [get?_modify]
  by_cases hi : id = i
  · subst hi
    simp [hr]
  · simp [hi, Ne.symm hi]

theorem waits_add {place : Waypoint} {line : Nat} {x : RefId} {i : SynonymId} :
    (a.add place line).Waits x i ↔ a.Waits x i := by
  constructor
  · rintro ⟨r, hr, hx⟩
    rw [get?_add] at hr
    split at hr
    · rw [← Option.some.inj hr] at hx
      cases hx
    · exact ⟨r, hr, hx⟩
  · rintro ⟨r, hr, hx⟩
    exact ⟨r, get?_add_of_get? hr place line, hx⟩

theorem Unified.exists_recordAt (h : a.Unified asked) (place : Waypoint) (line : Nat) :
    ∃ b id r, a.recordAt place line = (b, id) ∧ b.get? id = some r ∧ b.Unified asked ∧
      ∀ x i, b.Waits x i ↔ a.Waits x i := by
  obtain ⟨id, r, heq, hr, -⟩ | heq := recordAt_cases a place line
  · exact ⟨a, id, r, heq, hr, h, fun _ _ => Iff.rfl⟩
  · exact ⟨_, _, _, heq, (get?_add a place line _).trans (if_pos rfl), h.add place line,
      fun _ _ => waits_add⟩

/-- **A reference that comes to a place** waits for a synonym that was not absorbed, unless it is
resolved. -/
theorem Unified.wait (h : a.Unified asked) (isResolved : Bool) (ref : RefId) (place : Waypoint)
    (line : Nat) : (a.wait isResolved ref place line).1.Unified asked ∧
      ∃ id, ∀ x i, (a.wait isResolved ref place line).1.Waits x i ↔
        a.Waits x i ∨ isResolved = false ∧ x = ref ∧ i = id := by
  obtain ⟨b, id₀, r₀, heq, hr₀, hb, hwaits⟩ := h.exists_recordAt place line
  obtain ⟨r, hr, hn⟩ : ∃ r, b.get? (r₀.absorbedBy.getD id₀) = some r ∧ r.absorbedBy = none := by
    cases habs : r₀.absorbedBy with
    | none => exact ⟨r₀, hr₀, habs⟩
    | some into =>
      obtain ⟨-, key, -, hslot⟩ := hb.absorbed id₀ r₀ into hr₀ habs
      obtain ⟨r, -, hr, hn, -⟩ := hb.representative _ into hslot
      exact ⟨r, hr, hn⟩
  unfold Synonyms.wait
  rw [heq]
  dsimp only
  rw [hr₀, Option.bind_some]
  cases isResolved with
  | true =>
    refine ⟨hb.follow ref _, id₀, fun x i => ?_⟩
    rw [if_pos rfl, waits_follow, hwaits]
    simp
  | false =>
    refine ⟨(hb.push hr hn ref).follow ref _, r₀.absorbedBy.getD id₀, fun x i => ?_⟩
    rw [if_neg Bool.false_ne_true, waits_follow, waits_push hr, hwaits]
    simp

/-! ### One thing after the other -/

/-- What is done with the synonyms of a harvest. -/
inductive Deed
  /-- A reference comes to a place. -/
  | wait (ref : RefId) (place : Waypoint) (line : Nat)
  /-- A synonym is found to stand for a declaration. What is handed out is resolved. -/
  | identify (id : SynonymId) (key : Key)
  /-- A reference is resolved in another way. -/
  | resolve (ref : RefId)
deriving DecidableEq

/-- No synonym is found to stand for two declarations. -/
def Steady (deeds : List Deed) : Prop :=
  ∀ id key key', .identify id key ∈ deeds → .identify id key' ∈ deeds → key = key'

/-- The synonyms, with the references that came to some place and those that are resolved. -/
structure Ledger where
  synonyms : Synonyms
  tracked : List RefId
  resolved : List RefId

namespace Ledger

def empty : Ledger := ⟨Synonyms.empty, [], []⟩

def isResolved (l : Ledger) (ref : RefId) : Bool := ref ∈ l.resolved

def step (l : Ledger) : Deed → Ledger
  | .wait ref place line =>
    { l with
      synonyms := (l.synonyms.wait (l.isResolved ref) ref place line).1
      tracked := ref :: l.tracked }
  | .identify id key =>
    let (synonyms, ready, _) := l.synonyms.identify l.isResolved id key
    { l with synonyms, resolved := ready ++ l.resolved }
  | .resolve ref => { l with resolved := ref :: l.resolved }

/-- The ledger after all of the deeds. -/
def run (deeds : List Deed) : Ledger := deeds.foldl step empty

/-- The references that wait and are not resolved. -/
def waiting (l : Ledger) : List RefId := l.synonyms.waiting l.isResolved

/-- **What holds after each deed.** -/
structure Kept (asked : SynonymId → Key → Prop) (l : Ledger) : Prop where
  unified : l.synonyms.Unified asked
  tracked : ∀ ref id, l.synonyms.Waits ref id → ref ∈ l.tracked
  waits : ∀ ref ∈ l.tracked, ref ∉ l.resolved → ∃ id, l.synonyms.Waits ref id

/-- **Nothing is lost.** The references that wait are those that came and are not resolved, each
once. A synonym that was absorbed is empty, and its absorber was not absorbed and stands for the
same declaration, seen in the same way from the same file. One synonym is left for each
declaration. -/
structure Sound (l : Ledger) : Prop where
  nodup : l.waiting.Nodup
  mem_waiting : ∀ ref, ref ∈ l.waiting ↔ ref ∈ l.tracked ∧ ref ∉ l.resolved
  absorbed : ∀ id r into, l.synonyms.get? id = some r → r.absorbedBy = some into →
    r.pending = [] ∧ ∃ first, l.synonyms.get? into = some first ∧ first.absorbedBy = none ∧
      first.place.file = r.place.file ∧ first.place.external = r.place.external ∧
      first.target = r.target
  unique : ∀ i j r r' key, l.synonyms.get? i = some r → l.synonyms.get? j = some r' →
    r.absorbedBy = none → r'.absorbedBy = none → r.target = some key → r'.target = some key →
    r.place.file = r'.place.file → r.place.external = r'.place.external → i = j

/-- **Nothing waits** for the synonym, for what absorbed it, or for what was absorbed by that one
too. -/
def Released (l : Ledger) (id : SynonymId) : Prop :=
  ∀ r, l.synonyms.get? id = some r → ∀ i r', l.synonyms.get? i = some r' →
    i = id ∨ i = r.absorbedBy.getD id ∨ r'.absorbedBy = some (r.absorbedBy.getD id) →
      r'.pending = []

variable {l : Ledger}

theorem kept_empty : empty.Kept asked := by
  refine ⟨Unified.empty, fun ref id h => ?_, fun ref h => absurd h List.not_mem_nil⟩
  obtain ⟨r, hr, -⟩ := h
  simp [empty, Synonyms.empty, get?] at hr

theorem step_identify_of_none (h : l.synonyms.get? id = none) (key : Key) :
    l.step (.identify id key) = l := by
  simp only [step, Synonyms.identify, h]
  rfl

/-- **What becomes of a ledger** when a synonym is found to stand for a declaration. -/
theorem Kept.exists_step (h : l.Kept asked) {r : Synonym} (hr : l.synonyms.get? id = some r)
    (hkey : ∀ k, asked id k → k = key) :
    ∃ b into first ready,
      l.step (.identify id key) = { l with synonyms := b, resolved := ready ++ l.resolved } ∧
      l.synonyms.Identifies key id into r first b ∧
      ∀ ref, ref ∈ ready ↔ (ref ∈ first.pending ∨ ref ∈ r.pending) ∧ ref ∉ l.resolved := by
  obtain ⟨b, into, first, ready, events, heq, hid, hready⟩ :=
    h.unified.exists_identify l.isResolved hr hkey
  refine ⟨b, into, first, ready, by simp only [step, heq], hid, fun ref => ?_⟩
  rw [hready, isResolved, decide_eq_false_iff_not]

/-- **What one deed keeps.** -/
theorem Kept.step (h : l.Kept asked) {deed : Deed}
    (hkey : ∀ id key, deed = .identify id key → ∀ k, asked id k → k = key) :
    (l.step deed).Kept fun id key => asked id key ∨ deed = .identify id key := by
  cases deed with
  | wait ref place line =>
    obtain ⟨hunified, id, hwaits⟩ := h.unified.wait (l.isResolved ref) ref place line
    refine ⟨hunified.mono fun _ _ => Or.inl, fun x i hx => ?_, fun x hx hres => ?_⟩
    · obtain hx | ⟨-, rfl, -⟩ := (hwaits x i).mp hx
      · exact List.mem_cons_of_mem _ (h.tracked x i hx)
      · exact List.mem_cons_self
    · by_cases hxref : x = ref
      · exact ⟨id, (hwaits x id).mpr (Or.inr ⟨decide_eq_false (hxref ▸ hres), hxref, rfl⟩)⟩
      · obtain ⟨i, hi⟩ := h.waits x ((List.mem_cons.mp hx).resolve_left hxref) hres
        exact ⟨i, (hwaits x i).mpr (Or.inl hi)⟩
  | identify id key =>
    cases hr : l.synonyms.get? id with
    | none =>
      rw [step_identify_of_none hr]
      exact ⟨h.unified.mono fun _ _ => Or.inl, h.tracked, h.waits⟩
    | some r =>
      obtain ⟨b, into, first, ready, hstep, hid, hready⟩ := h.exists_step hr (hkey id key rfl)
      rw [hstep]
      refine ⟨(hid.unified h.unified hr (hkey id key rfl)).mono ?_, fun x i hx => ?_,
        fun x hx hres => ?_⟩
      · rintro i k (hold | ⟨rfl, rfl⟩)
        · exact Or.inl hold
        · exact Or.inr rfl
      · exact h.tracked x i ((hid.waits_iff hr).mp hx).1
      · rw [List.mem_append, not_or] at hres
        obtain ⟨i, hi⟩ := h.waits x hx hres.2
        refine ⟨i, (hid.waits_iff hr).mpr ⟨hi, ?_, ?_⟩⟩
        -- what waited for one of the two was handed out
        all_goals
          rintro rfl
          obtain ⟨r', hr', hpending⟩ := hi
          refine hres.1 ((hready x).mpr ⟨?_, hres.2⟩)
        · obtain rfl := Option.some.inj (hid.record.symm.trans hr')
          exact Or.inl hpending
        · obtain rfl := Option.some.inj (hr.symm.trans hr')
          exact Or.inr hpending
  | resolve ref =>
    refine ⟨h.unified.mono fun _ _ => Or.inl, h.tracked, fun x hx hres => ?_⟩
    exact h.waits x hx fun hold => hres (List.mem_cons_of_mem _ hold)

/-- **What waited is handed out** by then. -/
theorem Kept.released (h : l.Kept asked) (hkey : ∀ k, asked id k → k = key) :
    (l.step (.identify id key)).Released id := by
  intro r' hr' i r'' hr'' hcase
  cases hr : l.synonyms.get? id with
  | none =>
    rw [step_identify_of_none hr, hr] at hr'
    cases hr'
  | some r =>
    obtain ⟨b, into, first, ready, hstep, hid, -⟩ := h.exists_step hr hkey
    rw [hstep] at hr' hr''
    have hinto : r'.absorbedBy.getD id = into := by
      obtain ⟨hsame, rfl⟩ | ⟨-, rfl⟩ | ⟨-, hne, -⟩ := hid.cases hr hr'
      · exact (congrArg (Option.getD · id) hid.single).trans hsame
      · rfl
      · exact absurd rfl hne
    rw [hinto] at hcase
    obtain ⟨-, rfl⟩ | ⟨-, rfl⟩ | ⟨hi, hne, -⟩ := hid.cases hr hr''
    · rfl
    · rfl
    · have habs : r''.absorbedBy = some into := (hcase.resolve_left hne).resolve_left hi
      exact ((hid.unified h.unified hr hkey).absorbed i r'' into hr'' habs).1

theorem mem_waiting_iff {ref : RefId} :
    ref ∈ l.waiting ↔ (∃ id, l.synonyms.Waits ref id) ∧ ref ∉ l.resolved := by
  rw [waiting, Synonyms.waiting, mem_distinct, List.mem_flatMap]
  constructor
  · rintro ⟨r, hr, href⟩
    obtain ⟨i, hi⟩ := List.mem_iff_getElem?.mp hr
    obtain ⟨hmem, hres⟩ := List.mem_filter.mp href
    exact ⟨⟨i, r, hi, hmem⟩, by simpa [isResolved] using hres⟩
  · rintro ⟨⟨i, r, hr, href⟩, hres⟩
    exact ⟨r, List.mem_of_getElem? hr, List.mem_filter.mpr ⟨href, by simpa [isResolved] using hres⟩⟩

/-- What is kept says that nothing is lost. -/
theorem Kept.sound (h : l.Kept asked) : l.Sound := by
  refine ⟨nodup_distinct _, fun ref => ?_, fun id r into hr hinto => ?_,
    fun i j r r' key hr hr' hn hn' ht ht' hfile hext => ?_⟩
  · rw [mem_waiting_iff]
    refine and_congr_left fun hres => ⟨?_, fun htracked => h.waits ref htracked hres⟩
    rintro ⟨id, hwaits⟩
    exact h.tracked ref id hwaits
  · obtain ⟨hempty, key, ht, hslot⟩ := h.unified.absorbed id r into hr hinto
    obtain ⟨first, key', hfirst, hn, ht', hsame⟩ := h.unified.representative _ into hslot
    obtain rfl : key' = key := congrArg (·.2.2) hsame
    exact ⟨hempty, first, hfirst, hn, congrArg (·.1) hsame, congrArg (·.2.1) hsame,
      ht'.trans ht.symm⟩
  · refine h.unified.unique hr hr' hn hn' ht ht' ?_
    rw [Synonym.slot, hfile, hext, Synonym.slot]

theorem Steady.of_append {deeds more : List Deed} (h : Steady (deeds ++ more)) : Steady deeds :=
  fun id key key' hk hk' => h id key key' (List.mem_append_left _ hk) (List.mem_append_left _ hk')

theorem run_concat (deeds : List Deed) (deed : Deed) :
    run (deeds ++ [deed]) = (run deeds).step deed := by
  rw [run, List.foldl_append]
  rfl

/-- **What all deeds keep.** -/
theorem kept_run {deeds : List Deed} (h : Steady deeds) :
    (run deeds).Kept fun id key => .identify id key ∈ deeds := by
  induction deeds using List.reverseRecOn with
  | nil => exact kept_empty
  | append_singleton deeds deed ih =>
    rw [run_concat]
    have hkey : ∀ id key, deed = .identify id key →
        ∀ k, .identify id k ∈ deeds → k = key := fun id key heq k hk =>
      h id k key (List.mem_append_left _ hk)
        (List.mem_append_right _ (List.mem_singleton.mpr heq.symm))
    have hstep := (ih (Steady.of_append h)).step hkey
    refine ⟨hstep.unified.mono fun id key => ?_, hstep.tracked, hstep.waits⟩
    rw [List.mem_append, List.mem_singleton]
    exact Or.imp_right Eq.symm

/-- **No reference is lost**, whatever is done and in whatever order, if no synonym is found to
stand for two declarations. When one is found to stand for a declaration, nothing waits any more
for it or for the others that its representative stands for. -/
theorem sound_run {deeds : List Deed} (h : Steady deeds) :
    (run deeds).Sound ∧
      ∀ before id key, deeds = before ++ [.identify id key] → (run deeds).Released id := by
  refine ⟨(kept_run h).sound, ?_⟩
  rintro before id key rfl
  rw [run_concat]
  refine (kept_run (Steady.of_append h)).released fun k hk => ?_
  exact h id k key (List.mem_append_left _ hk)
    (List.mem_append_right _ (List.mem_singleton.mpr rfl))

/-- Two names of one declaration, and a third one that no declaration is found for. -/
def aliases : List Deed :=
  [.wait 0 ⟨"App.vue", "Foo", false⟩ 2, .wait 1 ⟨"App.vue", "Bar", false⟩ 3,
    .wait 1 ⟨"App.vue", "Baz", false⟩ 3, .wait 2 ⟨"App.vue", "Baz", false⟩ 4,
    .identify 0 ⟨"types.ts", "Foo"⟩, .identify 1 ⟨"types.ts", "Foo"⟩]

theorem sound_run_aliases : Steady aliases ∧ (run aliases).Sound ∧ (run aliases).Released 1 ∧
    (run aliases).waiting = [2] := by
  have hsteady : Steady aliases := by
    intro id key key' h h'
    simp only [aliases, List.mem_cons, List.not_mem_nil, reduceCtorEq, Deed.identify.injEq,
      false_or, or_false] at h h'
    rcases h with ⟨-, rfl⟩ | ⟨-, rfl⟩ <;> rcases h' with ⟨-, rfl⟩ | ⟨-, rfl⟩ <;> rfl
  obtain ⟨hsound, hreleased⟩ := sound_run hsteady
  exact ⟨hsteady, hsound, hreleased (aliases.take 5) 1 ⟨"types.ts", "Foo"⟩ rfl, by decide⟩

end Ledger

end Synonyms

end TypeGraft
