import Mathlib.Data.Finset.Card
import TypeGraft.Proofs.Harvest.Tracking

/-!
# Working off what waits

When a declaration is found, the records that wait for it are worked off one by one
(`TypeGraft.Harvest.fulfilAll`), and each of them may bring in others. This file shows that the
last one is reached (`TypeGraft.Harvest.worksOff_fulfil`): the steps that
`TypeGraft.Harvest.fulfil` is given are never used up before.

A record is brought in only while it is *open*, which is to say that it stands for nothing yet, and
only if it is not in the list already. A record that is taken off the list stands for the
declaration from then on. So the number of open records bounds what can still be taken off. The
first record need not be open; the one step that it costs is the one that is granted beyond the
number of records.
-/

namespace TypeGraft

namespace Synonyms

variable {a b : Synonyms} {key : Key}

/-- Whether a record stands for nothing yet. -/
def isOpen (a : Synonyms) (id : SynonymId) : Bool :=
  ((a.get? id).map (·.target.isNone)).getD false

/-- The records that stand for nothing yet. -/
def openIds (a : Synonyms) : Finset SynonymId :=
  (Finset.range a.records.length).filter fun id => a.isOpen id

/-- **No reference is noted twice** on its way through the records. -/
def Unrepeated (a : Synonyms) : Prop := ∀ ref, (a.trail ref).Nodup

theorem lt_length_of_isOpen {id : SynonymId} (h : a.isOpen id = true) : id < a.records.length := by
  by_contra hlt
  rw [isOpen, get?, List.getElem?_eq_none (Nat.not_lt.mp hlt)] at h
  exact absurd h (by simp)

theorem mem_openIds {id : SynonymId} : id ∈ a.openIds ↔ a.isOpen id = true := by
  rw [openIds, Finset.mem_filter, Finset.mem_range]
  exact ⟨And.right, fun h => ⟨lt_length_of_isOpen h, h⟩⟩

theorem card_openIds_le (a : Synonyms) : a.openIds.card ≤ a.records.length :=
  (Finset.card_filter_le _ _).trans (Finset.card_range _).le

theorem isOpen_modify (change : Synonym → Synonym) (h : ∀ r, (change r).target = r.target)
    (id i : SynonymId) : (a.modify id change).isOpen i = a.isOpen i := by
  rw [isOpen, get?_modify, isOpen]
  split
  · cases a.get? i with
    | none => rfl
    | some r => rw [Option.map_some, Option.map_some, Option.map_some, h]
  · rfl

theorem isOpen_representative (a : Synonyms) (id i : SynonymId) (place : Waypoint) (key : Key) :
    (a.representative id place key).1.isOpen i = a.isOpen i ∧
      (a.representative id place key).1.trails = a.trails := by
  unfold representative
  dsimp only
  split <;> exact ⟨rfl, rfl⟩

theorem isOpen_absorb (a : Synonyms) (id i : SynonymId) (record : Synonym) (into : SynonymId)
    (first : Synonym) : (a.absorb id record into first).1.isOpen i = a.isOpen i ∧
      (a.absorb id record into first).1.trails = a.trails := by
  refine ⟨?_, rfl⟩
  let given (r : Synonym) : Synonym := { r with absorbedBy := some into, pending := [] }
  let taking (r : Synonym) : Synonym := { r with pending := r.pending ++ record.pending }
  exact (isOpen_modify taking (fun _ => rfl) into i).trans
    (isOpen_modify given (fun _ => rfl) id i)

/-- **A record that stands for a declaration is open no more**, and all others are as they
were. -/
theorem isOpen_identify (a : Synonyms) (isResolved : RefId → Bool) (id i : SynonymId) (key : Key) :
    (a.identify isResolved id key).1.isOpen i = (a.isOpen i && i != id) ∧
      (a.identify isResolved id key).1.trails = a.trails := by
  generalize hfound : a.identify isResolved id key = found
  cases identifying hfound with
  | unknown hid =>
    refine ⟨?_, rfl⟩
    by_cases hi : i = id
    · rw [hi, isOpen, hid]
      rfl
    · rw [bne_iff_ne.mpr hi, Bool.and_true]
  | @known record a₂ a₃ into _ hid hrep habsorbs =>
    have hmarked : (a.modify id fun r => { r with target := some key }).isOpen i =
        (a.isOpen i && i != id) := by
      rw [isOpen, get?_modify]
      by_cases hi : id = i
      · subst hi
        rw [if_pos rfl, hid]
        simp
      · rw [if_neg hi, bne_iff_ne.mpr fun h => hi h.symm, Bool.and_true]
        rfl
    -- the marked synonym is the only one that is open no more
    have hrepresented :=
      isOpen_representative (a.modify id fun r => { r with target := some key }) id i
        record.place key
    rw [hrep, hmarked] at hrepresented
    have habsorbed : a₃.isOpen i = a₂.isOpen i ∧ a₃.trails = a₂.trails := by
      cases habsorbs with
      | taken => exact isOpen_absorb a₂ id i record into _
      | kept => exact ⟨rfl, rfl⟩
    let emptied (r : Synonym) : Synonym := { r with pending := [] }
    exact ⟨(isOpen_modify emptied (fun _ => rfl) into i).trans (habsorbed.1.trans hrepresented.1),
      habsorbed.2.trans hrepresented.2⟩

theorem Unrepeated.of_trails (h : a.Unrepeated) (ht : b.trails = a.trails) : b.Unrepeated := by
  intro ref
  rw [trail, ht]
  exact h ref

theorem Unrepeated.wait (h : a.Unrepeated) (ref : RefId) (place : Waypoint) (line : Nat) :
    (a.wait false ref place line).1.Unrepeated := by
  obtain ⟨b, id, r, hrecord, -, htrails, -⟩ := exists_recordAt a place line
  have hb : ∀ id change, (b.modify id change).Unrepeated := fun _ _ => h.of_trails htrails
  have hfollow : ∀ {c : Synonyms} (id : SynonymId), c.Unrepeated →
      (c.follow ref id).Unrepeated := by
    intro c id hc r
    rw [trail_follow]
    split
    · next hnew =>
      exact List.nodup_append.mpr ⟨hc ref, List.nodup_singleton id, by
        rintro i hi j hj rfl
        exact hnew.2 (List.mem_singleton.mp hj ▸ hi)⟩
    · exact hc r
  unfold Synonyms.wait
  rw [hrecord]
  exact hfollow _ (hb _ _)

theorem Unrepeated.settle (h : a.Unrepeated) (ref : RefId) (key : Key) :
    (a.settle ref key).Unrepeated := by
  refine h.of_trails ?_
  unfold Synonyms.settle
  refine List.foldlRecOn (motive := fun b : Synonyms => b.trails = a.trails) _ _ rfl ?_
  intro b hb id _
  exact hb

end Synonyms

namespace Harvest

variable {s s' : Harvest} {d : Declaration} {key : Key} {o : Outline} {q : Query}

/-- **Working records off** until none is left, the last one first. -/
inductive WorksOff (d : Declaration) (key : Key) : List SynonymId → Harvest → Harvest → Prop where
  /-- No record is left. -/
  | done {s : Harvest} : WorksOff d key [] s s
  /-- What waits for the last record is released. -/
  | next {work : List SynonymId} {id : SynonymId} {s s' : Harvest} (hlast : work.getLast? = some id)
      (h : WorksOff d key (release d key id work.dropLast s).2 (release d key id work.dropLast s).1
        s') : WorksOff d key work s s'

/-- Records that can be worked off: open ones, each once. -/
structure Workable (work : List SynonymId) (s : Harvest) : Prop where
  nodup : work.Nodup
  isOpen : ∀ id ∈ work, s.synonyms.isOpen id = true

theorem synonyms_deliver (s : Harvest) (d : Declaration) (key : Key) (ref : RefId) :
    (s.deliver d key ref).synonyms = s.synonyms := by
  obtain ⟨_, _, _, _, _, _, heq⟩ := exists_deliver s d key ref
  rw [heq]

/-- **What all the single steps keep**, resolving all that waits for a declaration keeps. -/
theorem fulfil_rec {motive : Harvest → Prop}
    (hidentify : ∀ s id, motive s → motive { s with
      synonyms := (s.synonyms.identify s.isResolved id key).1
      events := s.events ++ (s.synonyms.identify s.isResolved id key).2.2 })
    (hdeliver : ∀ s d ref, motive s → motive (s.deliver d key ref)) {id : SynonymId}
    (h : motive s) : motive (s.fulfil id key) := by
  have hrelease : ∀ (d : Declaration) (id : SynonymId) (work : List SynonymId) (s : Harvest),
      motive s → motive (release d key id work s).1 := by
    intro d id work s h
    refine List.foldlRecOn (motive := fun state : Harvest × List SynonymId => motive state.1) _ _
      (hidentify s id h) ?_
    rintro ⟨s₁, work₁⟩ h₁ ref -
    exact hdeliver s₁ d ref h₁
  have hall : ∀ (d : Declaration) (steps : Nat) (work : List SynonymId) (s : Harvest),
      motive s → motive (fulfilAll d key steps work s) := by
    intro d steps
    induction steps with
    | zero => exact fun _ _ h => h
    | succ steps ih =>
      intro work s h
      rw [fulfilAll_succ]
      split
      · exact h
      · exact ih _ _ (hrelease d _ _ s h)
  unfold fulfil
  split
  · exact hall _ _ _ s h
  · exact h

/-- **Releasing what waits for a record** brings in open records only, and takes that record off
those that are open. -/
theorem workable_release (d : Declaration) (key : Key) {id : SynonymId} {work : List SynonymId}
    (htrails : s.synonyms.Unrepeated) (hwork : Workable work s) (hid : id ∉ work) :
    Workable (release d key id work s).2 (release d key id work s).1 ∧
      (release d key id work s).1.synonyms.Unrepeated ∧
      ∀ i, (release d key id work s).1.synonyms.isOpen i = (s.synonyms.isOpen i && i != id) := by
  let a := (s.synonyms.identify s.isResolved id key).1
  have hopen : ∀ i, a.isOpen i = (s.synonyms.isOpen i && i != id) := fun i =>
    (Synonyms.isOpen_identify s.synonyms s.isResolved id i key).1
  have ha : a.Unrepeated :=
    htrails.of_trails (Synonyms.isOpen_identify s.synonyms s.isResolved id id key).2
  have hfold : (release d key id work s).1.synonyms = a ∧
      Workable (release d key id work s).2 (release d key id work s).1 := by
    refine List.foldlRecOn
      (motive := fun state : Harvest × List SynonymId =>
        state.1.synonyms = a ∧ Workable state.2 state.1) _ _ ?_ ?_
    · refine ⟨rfl, hwork.nodup, ?_⟩
      intro i hi
      change a.isOpen i = true
      rw [hopen, hwork.isOpen i hi, bne_iff_ne.mpr (ne_of_mem_of_not_mem hi hid)]
      rfl
    · rintro ⟨s₁, work₁⟩ ⟨hsame, hwork₁⟩ ref -
      have hsame₁ : (s₁.deliver d key ref).synonyms = a :=
        (synonyms_deliver s₁ d key ref).trans hsame
      refine ⟨hsame₁, ?_, ?_⟩
      · -- the records that are added are not in the list, and stand on the trail once
        refine List.nodup_append.mpr ⟨hwork₁.nodup, ?_, ?_⟩
        · rw [openRecords, hsame₁]
          exact (ha ref).filter _
        · rintro i hi j hj rfl
          have hfilter := (List.mem_filter.mp hj).2
          exact of_decide_eq_true (Bool.and_eq_true_iff.mp hfilter).1 hi
      · intro i hi
        rw [hsame₁]
        rcases List.mem_append.mp hi with hi | hi
        · rw [← hsame]
          exact hwork₁.isOpen i hi
        · have hfilter := (List.mem_filter.mp hi).2
          rw [hsame₁] at hfilter
          exact (Bool.and_eq_true_iff.mp hfilter).2
  rw [hfold.1]
  exact ⟨hfold.2, ha, hopen⟩

/-- **As many steps as there are open records** are enough to work off some of them. -/
theorem worksOff_fulfilAll {steps : Nat} {work : List SynonymId} (htrails : s.synonyms.Unrepeated)
    (hwork : Workable work s) (hsteps : s.synonyms.openIds.card ≤ steps) :
    WorksOff d key work s (fulfilAll d key steps work s) := by
  induction steps generalizing work s with
  | zero =>
    cases work with
    | nil => exact WorksOff.done
    | cons id work =>
      have hmem := Synonyms.mem_openIds.mpr (hwork.isOpen id List.mem_cons_self)
      rw [Finset.card_eq_zero.mp (Nat.le_zero.mp hsteps)] at hmem
      exact absurd hmem (Finset.notMem_empty id)
  | succ steps ih =>
    rw [fulfilAll_succ]
    cases hlast : work.getLast? with
    | none =>
      rw [List.getLast?_eq_none_iff.mp hlast]
      exact WorksOff.done
    | some id =>
      have hsplit : work.dropLast ++ [id] = work := List.dropLast_append_getLast? id hlast
      have hnodup : (work.dropLast ++ [id]).Nodup := by
        rw [hsplit]
        exact hwork.nodup
      have hid : id ∉ work.dropLast := fun h =>
        (List.nodup_append.mp hnodup).2.2 id h id (List.mem_singleton_self id) rfl
      have hrest : Workable work.dropLast s :=
        ⟨(List.nodup_append.mp hnodup).1, fun i hi => hwork.isOpen i (List.mem_of_mem_dropLast hi)⟩
      obtain ⟨hnext, htrails', hopen⟩ := workable_release d key htrails hrest hid
      refine WorksOff.next hlast (ih htrails' hnext ?_)
      -- the record that is taken off was open, and no other one becomes open
      refine Nat.le_of_lt_succ (Nat.lt_of_lt_of_le (Finset.card_lt_card ?_) hsteps)
      refine Finset.ssubset_iff_of_subset ?_ |>.mpr ⟨id, ?_, ?_⟩
      · intro i hi
        rw [Synonyms.mem_openIds, hopen] at hi
        exact Synonyms.mem_openIds.mpr (Bool.and_eq_true_iff.mp hi).1
      · exact Synonyms.mem_openIds.mpr (hwork.isOpen id (List.mem_of_getLast? hlast))
      · rw [Synonyms.mem_openIds, hopen]
        simp

/-- **All records are worked off** when a record is found to stand for a declaration. -/
theorem worksOff_fulfil {e : Graft} (he : s.graft? key = some e) (htrails : s.synonyms.Unrepeated)
    (id : SynonymId) : WorksOff e.declaration key [id] s (s.fulfil id key) := by
  have hnone : Workable [] s := ⟨List.nodup_nil, fun _ h => absurd h List.not_mem_nil⟩
  obtain ⟨hnext, htrails', hopen⟩ :=
    workable_release e.declaration key htrails hnone (List.not_mem_nil (a := id))
  have hcard : (release e.declaration key id [] s).1.synonyms.openIds.card ≤
      s.synonyms.records.length := by
    refine (Finset.card_le_card ?_).trans s.synonyms.card_openIds_le
    intro i hi
    rw [Synonyms.mem_openIds, hopen] at hi
    exact Synonyms.mem_openIds.mpr (Bool.and_eq_true_iff.mp hi).1
  unfold fulfil
  rw [he]
  dsimp only
  rw [fulfilAll_succ]
  exact WorksOff.next rfl (worksOff_fulfilAll htrails' hnext hcard)

/-! ### The trails -/

theorem unrepeated_fulfil (h : s.synonyms.Unrepeated) (id : SynonymId) (key : Key) :
    (s.fulfil id key).synonyms.Unrepeated := by
  refine fulfil_rec (motive := fun s => s.synonyms.Unrepeated) ?_ ?_ h
  · intro s id h
    exact h.of_trails (Synonyms.isOpen_identify s.synonyms s.isResolved id id key).2
  · intro s d ref h
    rw [synonyms_deliver]
    exact h

/-- **Looking for a name** notes no record twice on the trail of a reference. -/
theorem Looks.unrepeated {found : Found} (h : Looks s o q s' found)
    (htrails : s.synonyms.Unrepeated) : s'.synonyms.Unrepeated := by
  have harrive : ∀ r, (s.arrive o q r).synonyms.Unrepeated := fun r => htrails.wait _ _ _
  cases h with
  | passed => exact htrails
  | elsewhere | starred | unknown => exact harrive _
  | @leftOut r d hr =>
    refine Synonyms.Unrepeated.settle ?_ _ _
    rw [(delivered_leaveOut (s.arrive o q r) d.key q.ref).synonyms]
    exact harrive r
  | again => exact unrepeated_fulfil (harrive _) _ _
  | @first r d hr ha hl hg =>
    obtain ⟨parentRefs, hmeet⟩ :=
      exists_meet (s.arrive o q r) o d (s.arrival o q r).2 (requestOf r)
    rw [hmeet]
    refine unrepeated_fulfil (s := (s.arrive o q r).tookIn d (requestOf r)) ?_ _ _
    rw [(search_tookIn (s.arrive o q r) d (requestOf r) hg).2]
    exact harrive r

end Harvest

end TypeGraft
