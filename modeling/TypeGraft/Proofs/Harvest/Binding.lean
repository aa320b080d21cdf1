import TypeGraft.Proofs.Harvest.Change
import TypeGraft.Proofs.Harvest.Synonyms

/-!
# Which references are resolved together

When a name is found to stand for a declaration, all that waits for it is resolved, and after
that what waits for the names that those references passed through. This file says which
references are resolved in this way, and to what.

* `TypeGraft.Harvest.Resolves`: some references are resolved to one declaration, and no others
  change.
* `TypeGraft.Harvest.Met`: two references passed names that one name represents by now. A
  reference is handed a declaration only by one that it met (`TypeGraft.Harvest.Chained`).
* `TypeGraft.Harvest.fulfilled_fulfil`: what it comes to that a name stands for a declaration.

**The reference that found it.** The search for a declaration is begun again and again by
references that come to it themselves. Such a reference waits for the name by which it came,
so it is among those that are handed out first; all others follow from it in a chain of
references that met.
-/

namespace TypeGraft.Harvest

variable {s s' s'' : Harvest} {key : Key} {world : World}

/-! ### Resolving references -/

/-- **Some references are resolved to a declaration**, and no others change. -/
structure Resolves (key : Key) (s s' : Harvest) : Prop where
  length : s'.references.length = s.references.length
  reference : ∀ ref r, s.reference? ref = some r → s'.reference? ref = some r ∨
    (r.target = none ∧ s'.reference? ref = some { r with target := some key })

namespace Resolves

theorem of_references (h : s'.references = s.references) : s.Resolves key s' := by
  refine ⟨by rw [h], fun ref r hr => Or.inl ?_⟩
  rw [reference?, h]
  exact hr

theorem refl (s : Harvest) : s.Resolves key s := of_references rfl

theorem trans (h : s.Resolves key s') (h' : s'.Resolves key s'') : s.Resolves key s'' := by
  refine ⟨h'.length.trans h.length, ?_⟩
  intro ref r hr
  rcases h.reference ref r hr with hr' | ⟨hopen, hr'⟩
  · exact h'.reference ref r hr'
  · refine Or.inr ⟨hopen, ?_⟩
    rcases h'.reference ref _ hr' with hr'' | ⟨hopen', -⟩
    · exact hr''
    · exact absurd hopen' (by simp)

theorem isSome_reference? (h : s.Resolves key s') {ref : RefId} :
    (s'.reference? ref).isSome ↔ (s.reference? ref).isSome := by
  rw [reference?, reference?, isSome_getElem?, isSome_getElem?, h.length]

/-- A reference that was resolved stays as it is. -/
theorem targetOf (h : s.Resolves key s') {ref : RefId} {k : Key} (ht : s.targetOf ref = some k) :
    s'.targetOf ref = some k := by
  obtain ⟨r, hr, hk⟩ := Option.bind_eq_some_iff.mp ht
  rcases h.reference ref r hr with hr' | ⟨hopen, -⟩
  · rw [targetOf_of_reference? hr', hk]
  · rw [hopen] at hk
    exact absurd hk (by simp)

/-- A reference is resolved to the declaration, or is as it was. -/
theorem targetOf_eq (h : s.Resolves key s') (ref : RefId) :
    s'.targetOf ref = s.targetOf ref ∨ (s.targetOf ref = none ∧ s'.targetOf ref = some key) := by
  cases hr : s.reference? ref with
  | none =>
    have hnone : s'.reference? ref = none := by
      have hiff : (s'.reference? ref).isSome ↔ (s.reference? ref).isSome := h.isSome_reference?
      rw [hr] at hiff
      exact Option.not_isSome_iff_eq_none.mp fun hs => by simpa using hiff.mp hs
    exact Or.inl (by rw [Harvest.targetOf, Harvest.targetOf, hr, hnone])
  | some r =>
    rcases h.reference ref r hr with hr' | ⟨hopen, hr'⟩
    · exact Or.inl (by rw [targetOf_of_reference? hr', targetOf_of_reference? hr])
    · exact Or.inr ⟨by rw [targetOf_of_reference? hr, hopen], by rw [targetOf_of_reference? hr']⟩

end Resolves

theorem resolves_resolve {ref : RefId} {r : Reference} (hr : s.reference? ref = some r)
    (hopen : r.target = none) : s.Resolves key (s.resolve ref key) := by
  refine ⟨by rw [resolve, modifyReference, List.length_modify], ?_⟩
  intro ref' r' hr'
  rw [resolve, reference?_modifyReference]
  split
  · next he =>
    subst he
    rw [hr] at hr'
    obtain rfl := Option.some.inj hr'
    exact Or.inr ⟨hopen, by rw [hr]; rfl⟩
  · exact Or.inl hr'

theorem targetOf_resolve {ref : RefId} {r : Reference} (hr : s.reference? ref = some r) :
    (s.resolve ref key).targetOf ref = some key := by
  rw [targetOf, resolve, reference?_modifyReference, if_pos rfl, hr]
  rfl

/-- **Resolving one reference** to a declaration that was taken in. -/
structure Delivered (key : Key) (ref : RefId) (s s' : Harvest) : Prop where
  synonyms : s'.synonyms = s.synonyms
  resolves : s.Resolves key s'
  others : ∀ r, r ≠ ref → s'.targetOf r = s.targetOf r
  resolved : (s.reference? ref).isSome → s.targetOf ref = none → s'.targetOf ref = some key

theorem delivered_of_references {ref : RefId} {r : Reference} (hr : s.reference? ref = some r)
    (hsynonyms : s'.synonyms = s.synonyms)
    (href : s'.references = (if r.isResolved then s else s.resolve ref key).references) :
    Delivered key ref s s' := by
  have htarget : ∀ i, s'.targetOf i =
      (if r.isResolved then s else s.resolve ref key).targetOf i := fun i => by
    rw [targetOf, reference?, href]
    rfl
  split at href
  · next hres =>
    -- a reference that is resolved is left as it is
    refine ⟨hsynonyms, Resolves.of_references href, fun i _ => by rw [htarget, if_pos hres],
      ?_⟩
    intro _ hopen
    rw [targetOf_of_reference? hr] at hopen
    rw [Reference.isResolved, hopen] at hres
    exact absurd hres (by simp)
  · next hres =>
    have hopen : r.target = none := by simpa [Reference.isResolved] using hres
    refine ⟨hsynonyms, (resolves_resolve hr hopen).trans (Resolves.of_references href),
      ?_, fun _ _ => by rw [htarget, if_neg hres, targetOf_resolve hr]⟩
    intro i hi
    rw [htarget, if_neg hres, targetOf, resolve, reference?_modifyReference,
      if_neg fun h => hi h.symm]
    rfl

theorem delivered_leaveOut (s : Harvest) (key : Key) (ref : RefId) :
    Delivered key ref s (s.leaveOut ref key) := by
  cases hr : s.reference? ref with
  | none =>
    rw [leaveOut_of_none hr]
    exact ⟨rfl, Resolves.refl s, fun _ _ => rfl, fun h => absurd h (by simp [hr])⟩
  | some r =>
    exact delivered_of_references hr (search_leaveOut hr key).2 (search_leaveOut hr key).1

theorem delivered_deliver (hg : (s.graft? key).isSome) (d : Declaration) (ref : RefId) :
    Delivered key ref s (s.deliver d key ref) := by
  unfold deliver
  cases hr : s.reference? ref with
  | none => exact ⟨rfl, Resolves.refl s, fun _ _ => rfl, fun h => absurd h (by simp [hr])⟩
  | some r =>
    dsimp only
    split
    · exact delivered_leaveOut s key ref
    · exact delivered_of_references hr (search_link hr hg).2 (search_link hr hg).1

theorem changes_deliver {e : Graft} (hgrounded : s.Grounded) (he : s.graft? key = some e)
    (ref : RefId) : Changes world s (s.deliver e.declaration key ref) := by
  unfold deliver
  split
  · next r hr =>
    split
    · next hl =>
      exact Relation.ReflTransGen.single (Change.leaveOut hr (hgrounded.graft key e he) hl)
    · next hl =>
      exact Relation.ReflTransGen.single (Change.link hr he (by simpa using hl))
  · exact Relation.ReflTransGen.refl

/-! ### References that met -/

/-- **Two references met**: they passed names that one name represents. -/
def Met (s : Harvest) (ref ref' : RefId) : Prop :=
  ∃ id, s.synonyms.Passed ref id ∧ s.synonyms.Passed ref' id

/-- A reference that met one to which a declaration was handed, or which found it. -/
def FollowsFrom (s : Harvest) (key : Key) (finder ref ref' : RefId) : Prop :=
  s.Met ref ref' ∧ (ref' = finder ∨ s.targetOf ref' = some key)

/-- **A chain of references that met**, up to the one that found the declaration. -/
def Chained (s : Harvest) (key : Key) (finder ref : RefId) : Prop :=
  Relation.ReflTransGen (s.FollowsFrom key finder) ref finder

theorem Met.mono (hs : s.synonyms.Grows s'.synonyms) {ref ref' : RefId} (h : s.Met ref ref') :
    s'.Met ref ref' := by
  obtain ⟨id, hp, hp'⟩ := h
  exact ⟨id, hs.passed hp, hs.passed hp'⟩

theorem Chained.mono (hs : s.synonyms.Grows s'.synonyms)
    (ht : ∀ ref k, s.targetOf ref = some k → s'.targetOf ref = some k) {finder ref : RefId}
    (h : s.Chained key finder ref) : s'.Chained key finder ref :=
  h.lift id fun _ _ hf => ⟨hf.1.mono hs, hf.2.imp_right (ht _ key)⟩

/-! ### Releasing what waits -/

section Release

variable {declares : Waypoint → Key → Prop} {finder : RefId}

/-- Resolve all that waits for a record, and put the records that it passed through into
`work`. -/
def release (d : Declaration) (key : Key) (id : SynonymId) (work : List SynonymId) (s : Harvest) :
    Harvest × List SynonymId :=
  let (synonyms, ready, events) := s.synonyms.identify s.isResolved id key
  ready.foldl (fun (s, work) ref =>
      let s := s.deliver d key ref
      (s, work ++ s.openRecords ref work))
    ({ s with synonyms, events := s.events ++ events }, work)

theorem fulfilAll_succ (d : Declaration) (key : Key) (steps : Nat) (work : List SynonymId)
    (s : Harvest) : fulfilAll d key (steps + 1) work s =
      match work.getLast? with
      | none => s
      | some id =>
        fulfilAll d key steps (release d key id work.dropLast s).2
          (release d key id work.dropLast s).1 := by
  rw [fulfilAll]
  cases work.getLast? <;> rfl

theorem keeps_deliver (s : Harvest) (d : Declaration) (key : Key) (ref : RefId) :
    s.Keeps (s.deliver d key ref) := by
  unfold deliver
  split
  · split
    · exact keeps_leaveOut s ref key
    · exact keeps_link s ref key
  · exact Keeps.refl s

theorem keeps_release (d : Declaration) (key : Key) (id : SynonymId) (work : List SynonymId)
    (s : Harvest) : s.Keeps (release d key id work s).1 := by
  refine List.foldlRecOn (motive := fun state : Harvest × List SynonymId => s.Keeps state.1)
    _ _ ?_ ?_
  · exact keeps_note s _ _ s.reads s.parentRefs
  · rintro ⟨s₁, work₁⟩ hkeeps ref -
    exact hkeeps.trans (keeps_deliver s₁ d key ref)

/-- **Resolving references** takes in no declaration. -/
theorem keeps_fulfil (s : Harvest) (id : SynonymId) (key : Key) : s.Keeps (s.fulfil id key) := by
  have hall : ∀ (d : Declaration) (steps : Nat) (work : List SynonymId) (s : Harvest),
      s.Keeps (fulfilAll d key steps work s) := by
    intro d steps
    induction steps with
    | zero => exact fun _ s => Keeps.refl s
    | succ steps ih =>
      intro work s
      rw [fulfilAll_succ]
      split
      · exact Keeps.refl s
      · exact (keeps_release d key _ _ s).trans (ih _ _)
  unfold fulfil
  split
  · exact hall _ _ _ s
  · exact Keeps.refl s

/-- A synonym that a reference passed to which the declaration was handed, or which found it. -/
def Sourced (s : Harvest) (key : Key) (finder : RefId) (id : SynonymId) : Prop :=
  ∃ ref, id ∈ s.synonyms.trail ref ∧ (ref = finder ∨ s.targetOf ref = some key) ∧
    s.Chained key finder ref

theorem Sourced.mono (hs : s.synonyms.Grows s'.synonyms)
    (ht : ∀ ref k, s.targetOf ref = some k → s'.targetOf ref = some k) {id : SynonymId}
    (h : s.Sourced key finder id) : s'.Sourced key finder id := by
  obtain ⟨ref, htrail, hfind, hchain⟩ := h
  exact ⟨ref, hs.trail ref id htrail, hfind.imp_right (ht ref key), hchain.mono hs ht⟩

/-- **What comes of resolving some references**, one after the other. -/
theorem delivered_foldl (world : World) (hg : (s.graft? key).isSome) (d : Declaration)
    (hd : ∀ e, s.graft? key = some e → e.declaration = d) (ready : List RefId)
    (work : List SynonymId) (hgrounded : s.Grounded) :
    ∃ s' work', ready.foldl (fun (s, work) ref =>
        let s := s.deliver d key ref
        (s, work ++ s.openRecords ref work)) (s, work) = (s', work') ∧
      s'.synonyms = s.synonyms ∧ s.Resolves key s' ∧ Changes world s s' ∧
      (∀ ref, ref ∉ ready → s'.targetOf ref = s.targetOf ref) ∧
      (∀ ref ∈ ready, (s.reference? ref).isSome → s.targetOf ref = none →
        s'.targetOf ref = some key) ∧
      ∀ i ∈ work', i ∈ work ∨ ∃ ref ∈ ready, i ∈ s.synonyms.trail ref ∧
        ∃ r, s.synonyms.get? i = some r ∧ r.target = none := by
  induction ready generalizing s work with
  | nil =>
    exact ⟨s, work, rfl, rfl, Resolves.refl s, Relation.ReflTransGen.refl, fun _ _ => rfl, by simp,
      fun _ => Or.inl⟩
  | cons ref ready ih =>
    have hdel := delivered_deliver hg d ref
    have hchanges : Changes world s (s.deliver d key ref) := by
      obtain ⟨e, he⟩ := Option.isSome_iff_exists.mp hg
      rw [← hd e he]
      exact changes_deliver hgrounded he ref
    obtain ⟨s', work', hfold, hsyn, hres, hch, hout, hin, hwork⟩ :=
      ih (hchanges.isSome_graft? hg) (fun e he => by
        obtain ⟨e₀, he₀⟩ := Option.isSome_iff_exists.mp hg
        obtain ⟨e₁, he₁, hd₁, -⟩ := hchanges.graft he₀
        rw [he] at he₁
        rw [Option.some.inj he₁, hd₁, hd e₀ he₀])
        (work ++ (s.deliver d key ref).openRecords ref work) (hgrounded.changes hchanges)
    refine ⟨s', work', hfold, hsyn.trans hdel.synonyms, hdel.resolves.trans hres,
      hchanges.trans hch, ?_, ?_, ?_⟩
    · intro r hr
      rw [hout r fun h => hr (List.mem_cons_of_mem _ h)]
      exact hdel.others r fun h => hr (h ▸ List.mem_cons_self)
    · intro r hr hvalid hopen
      rcases List.mem_cons.mp hr with rfl | hr
      · exact hres.targetOf (hdel.resolved hvalid hopen)
      · rcases hdel.resolves.targetOf_eq r with heq | ⟨-, heq⟩
        · exact hin r hr (hdel.resolves.isSome_reference?.mpr hvalid) (heq.trans hopen)
        · exact hres.targetOf heq
    · -- the records that are added are those on the trail of the reference
      intro i hi
      rw [hdel.synonyms] at hwork
      rcases hwork i hi with hi | ⟨r, hr, htrail⟩
      · rcases List.mem_append.mp hi with hi | hi
        · exact Or.inl hi
        · rw [openRecords, List.mem_filter, hdel.synonyms] at hi
          refine Or.inr ⟨ref, List.mem_cons_self, hi.1, ?_⟩
          cases hget : s.synonyms.get? i with
          | none => simp [hget] at hi
          | some record =>
            have hopen := (Bool.and_eq_true_iff.mp hi.2).2
            exact ⟨record, rfl, by simpa [hget] using hopen⟩
      · exact Or.inr ⟨r, List.mem_cons_of_mem _ hr, htrail⟩

/-- **What holds while records are worked off**: the names that stand for the declaration are
consistent, and every record in the list leads to it and was passed by a reference in the
chain. -/
structure Working (declares : Waypoint → Key → Prop) (key : Key) (finder : RefId)
    (work : List SynonymId) (s : Harvest) : Prop where
  consistent : s.synonyms.Consistent declares
  valid : ∀ ref i, i ∈ s.synonyms.trail ref → (s.reference? ref).isSome
  work : ∀ i ∈ work, s.synonyms.Fits declares key i ∧ s.Sourced key finder i

/-- What comes of finding a declaration: some references that met are resolved to it. -/
structure Fulfilled (declares : Waypoint → Key → Prop) (key : Key) (finder : RefId)
    (s s' : Harvest) : Prop where
  revises : s.synonyms.Revises s'.synonyms
  consistent : s'.synonyms.Consistent declares
  settled : s'.synonyms.Settled declares
  resolves : s.Resolves key s'
  chained : ∀ ref, s.targetOf ref = none → s'.targetOf ref = some key → s'.Chained key finder ref

theorem Fulfilled.trans (h : Fulfilled declares key finder s s')
    (h' : Fulfilled declares key finder s' s'') : Fulfilled declares key finder s s'' := by
  refine ⟨h.revises.trans h'.revises, h'.consistent, h'.settled, h.resolves.trans h'.resolves, ?_⟩
  intro ref hopen htarget
  rcases h.resolves.targetOf_eq ref with heq | ⟨-, heq⟩
  · exact h'.chained ref (heq.trans hopen) htarget
  · exact (h.chained ref hopen heq).mono h'.revises.toGrows fun _ _ => h'.resolves.targetOf

/-- **Releasing what waits for one record.** -/
theorem fulfilled_release (world : World) {id : SynonymId} {work : List SynonymId} {e : Graft}
    (hgrounded : s.Grounded) (he : s.graft? key = some e)
    (hwork : Working declares key finder (id :: work) s)
    (hsettled : s.synonyms.SettledBut declares id) :
    ∃ s' work', release e.declaration key id work s = (s', work') ∧ Changes world s s' ∧
      Fulfilled declares key finder s s' ∧ Working declares key finder work' s' ∧
      (s.synonyms.Leads declares key id → ∀ ref, s.synonyms.Waits ref id →
        s.targetOf ref = none → s'.targetOf ref = some key) := by
  obtain ⟨hfits, source, htrail, hsource, hchain⟩ := hwork.work id List.mem_cons_self
  obtain ⟨b, ready, events, hidentify, hb⟩ :=
    Synonyms.identified_identify hwork.consistent s.isResolved hfits
  let noted : Harvest := { s with synonyms := b, events := s.events ++ events }
  have hnote : Change world s noted := Change.note b (s.events ++ events) s.reads s.parentRefs
  obtain ⟨s', work', hfold, hsyn, hres, hch, hout, hin, hnew⟩ :=
    delivered_foldl world (s := noted) (by rw [show noted.graft? key = _ from he]; rfl)
      e.declaration (fun e' he' => by rw [Option.some.inj (he.symm.trans he')]) ready work
      (hgrounded.change hnote)
  have hrelease : release e.declaration key id work s = (s', work') := by
    rw [release, hidentify]
    exact hfold
  have hgrows : s.synonyms.Grows s'.synonyms := by
    rw [hsyn]
    exact hb.revises.toGrows
  have hsame : s.Resolves key noted := Resolves.of_references rfl
  have hresolves : s.Resolves key s' := hsame.trans hres
  have hkeep : ∀ ref k, s.targetOf ref = some k → s'.targetOf ref = some k :=
    fun _ _ => hresolves.targetOf
  have hsettled' : s'.synonyms.Settled declares := by
    rw [hsyn]
    exact hb.revises.settled hsettled hb.target
  have hconsistent' : s'.synonyms.Consistent declares := by
    rw [hsyn]
    exact hb.consistent
  -- a reference that is handed out is there, and is not resolved before
  have hready : ∀ ref ∈ ready, (s.reference? ref).isSome ∧ s.targetOf ref = none := by
    intro ref href
    obtain ⟨into, -, hpassed⟩ := hb.passed
    obtain ⟨i, hi, -⟩ := hpassed ref href
    have hopen := hb.unresolved ref href
    rw [Synonyms.trail, hb.revises.trails] at hi
    exact ⟨hwork.valid ref i hi, by simpa [isResolved] using hopen⟩
  have hresolved : ∀ ref ∈ ready, s'.targetOf ref = some key := fun ref href =>
    hin ref href (hready ref href).1 (hready ref href).2
  have hchained : ∀ ref ∈ ready, s'.Chained key finder ref := by
    intro ref href
    obtain ⟨into, hrep, hpassed⟩ := hb.passed
    -- what is handed out met the reference that passed this record
    have hmet : s'.Met ref source := by
      refine ⟨into, ?_, ?_⟩
      · rw [hsyn]
        exact hpassed ref href
      · rw [hsyn]
        exact Synonyms.Passed.trans ⟨id, hb.revises.trail source id htrail,
          Relation.ReflTransGen.refl⟩ hrep
    exact (hchain.mono hgrows hkeep).head ⟨hmet, hsource.imp_right (hkeep source key)⟩
  refine ⟨s', work', hrelease, hch.head hnote, ⟨?_, hconsistent', hsettled', hresolves, ?_⟩,
    ⟨hconsistent', ?_, ?_⟩, ?_⟩
  · rw [hsyn]
    exact hb.revises
  · -- only what is handed out is resolved
    intro ref hopen htarget
    by_cases href : ref ∈ ready
    · exact hchained ref href
    · rw [hout ref href] at htarget
      rw [show noted.targetOf ref = s.targetOf ref from rfl, hopen] at htarget
      exact absurd htarget (by simp)
  · intro ref i hi
    rw [hsyn, Synonyms.trail, hb.revises.trails] at hi
    exact hresolves.isSome_reference?.mpr (hwork.valid ref i hi)
  · intro i hi
    rcases hnew i hi with hi | ⟨ref, href, htrail', r, hr, hopen⟩
    · obtain ⟨hf, hs⟩ := hwork.work i (List.mem_cons_of_mem _ hi)
      refine ⟨?_, hs.mono hgrows hkeep⟩
      rw [hsyn]
      exact hb.fits i hf
    · refine ⟨Or.inl (hconsistent'.leads_of_open hsettled' (by rw [hsyn]; exact hr) hopen key),
        ref, by rw [hsyn]; exact htrail', Or.inr (hresolved ref href), hchained ref href⟩
  · intro hleads ref hw hopen
    exact hresolved ref (hb.complete hleads ref hw (by simp [isResolved, hopen]))

/-- Working off all records, when each declared name stands for something. -/
theorem fulfilled_fulfilAll (world : World) (steps : Nat) {work : List SynonymId} {e : Graft}
    (hgrounded : s.Grounded) (he : s.graft? key = some e)
    (hwork : Working declares key finder work s) (hsettled : s.synonyms.Settled declares) :
    Changes world s (fulfilAll e.declaration key steps work s) ∧
      Fulfilled declares key finder s (fulfilAll e.declaration key steps work s) := by
  have hstop : Changes world s s ∧ Fulfilled declares key finder s s := by
    refine ⟨Relation.ReflTransGen.refl, Synonyms.Revises.refl _, hwork.consistent, hsettled,
      Resolves.refl s, ?_⟩
    intro ref hopen htarget
    rw [hopen] at htarget
    exact absurd htarget (by simp)
  induction steps generalizing s work e with
  | zero => exact hstop
  | succ steps ih =>
    rw [fulfilAll_succ]
    cases hlast : work.getLast? with
    | none => exact hstop
    | some id =>
      have hsplit : work.dropLast ++ [id] = work :=
        List.dropLast_append_getLast? id hlast
      have hwork' : Working declares key finder (id :: work.dropLast) s := by
        refine ⟨hwork.consistent, hwork.valid, fun i hi => hwork.work i ?_⟩
        rw [← hsplit]
        rcases List.mem_cons.mp hi with rfl | hi
        · simp
        · exact List.mem_append_left _ hi
      obtain ⟨s₁, work₁, hrelease, hch, hful, hwork₁, -⟩ := fulfilled_release world
        hgrounded he hwork' fun i r key _ => hsettled i r key
      obtain ⟨e₁, he₁, hd₁, -⟩ := hch.graft he
      dsimp only
      rw [hrelease, ← hd₁]
      obtain ⟨hch', hful'⟩ := ih (hgrounded.changes hch) he₁ hwork₁ hful.settled ⟨
        Relation.ReflTransGen.refl, Synonyms.Revises.refl _, hwork₁.consistent, hful.settled,
        Resolves.refl _, fun ref hopen htarget => by rw [hopen] at htarget; simp at htarget⟩
      exact ⟨hch.trans hch', hful.trans hful'⟩

/-- **What comes of finding a declaration**: the reference that found it is resolved to it, and
with it references that it is chained to by others that met. -/
theorem fulfilled_fulfil (world : World) {id : SynonymId} (hgrounded : s.Grounded)
    (hg : (s.graft? key).isSome) (hconsistent : s.synonyms.Consistent declares)
    (hvalid : ∀ ref i, i ∈ s.synonyms.trail ref → (s.reference? ref).isSome)
    (hsettled : s.synonyms.SettledBut declares id) (hleads : s.synonyms.Leads declares key id)
    (htrail : id ∈ s.synonyms.trail finder) (hwaits : s.synonyms.Waits finder id)
    (hopen : s.targetOf finder = none) :
    Changes world s (s.fulfil id key) ∧ Fulfilled declares key finder s (s.fulfil id key) ∧
      (s.fulfil id key).targetOf finder = some key := by
  obtain ⟨e, he⟩ := Option.isSome_iff_exists.mp hg
  have hwork : Working declares key finder [id] s := by
    refine ⟨hconsistent, hvalid, ?_⟩
    intro i hi
    rw [List.mem_singleton.mp hi]
    exact ⟨Or.inl hleads, finder, htrail, Or.inl rfl, Relation.ReflTransGen.refl⟩
  obtain ⟨s₁, work₁, hrelease, hch, hful, hwork₁, hcomplete⟩ :=
    fulfilled_release world hgrounded he hwork hsettled
  obtain ⟨e₁, he₁, hd₁, -⟩ := hch.graft he
  obtain ⟨hch', hful'⟩ := fulfilled_fulfilAll world
    s.synonyms.records.length (hgrounded.changes hch) he₁ hwork₁ hful.settled
  have heq : s.fulfil id key =
      fulfilAll e₁.declaration key s.synonyms.records.length work₁ s₁ := by
    unfold fulfil
    rw [he]
    dsimp only
    rw [fulfilAll_succ]
    change fulfilAll e.declaration key _ (release e.declaration key id [] s).2
      (release e.declaration key id [] s).1 = _
    rw [hrelease, hd₁]
  rw [heq]
  exact ⟨hch.trans hch', hful.trans hful',
    hful'.resolves.targetOf (hcomplete hleads finder hwaits hopen)⟩

end Release

end TypeGraft.Harvest
