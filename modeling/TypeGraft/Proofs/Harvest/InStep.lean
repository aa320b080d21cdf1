import TypeGraft.Proofs.Harvest.Known

/-!
# Names and references go in step

A name that was looked for in a file stands for a declaration exactly if a reference that came to it
is resolved (`TypeGraft.Harvest.InStep.isSome_get?_knownNames_iff`). So a search that ends without a
declaration for the references that came to a name does not know the name.

Between two looks that is so at all times (`TypeGraft.Harvest.InStep.looks`). While the names are
worked off that wait for one declaration, those that are left are in a list
(`TypeGraft.Harvest.Releasing`), and the reference that found the declaration counts as resolved.
-/

namespace TypeGraft.Harvest

variable {world : World} {files : String → Option Outline} {external : Bool} {s s' : Harvest}
  {o : Outline} {q : Query} {found : Found} {key : Key} {ref finder : RefId}
  {work : List SynonymId} {place : Waypoint}

/-- A reference has come to a place. -/
def CameTo (s : Harvest) (ref : RefId) (place : Waypoint) : Prop :=
  ∃ visited, s.visits[ref]? = some visited ∧ place ∈ visited

/-- **Names and references go in step**: a name stands for something exactly if a reference that
came to it is resolved. -/
structure InStep (s : Harvest) : Prop where
  founded : s.synonyms.Founded s.CameTo fun ref => s.isResolved ref = true
  covered : s.synonyms.Covered s.CameTo (fun ref => s.isResolved ref = true) []
  /-- Nothing is resolved that came nowhere. -/
  came : ∀ ref, s.isResolved ref = true → ∃ place, s.CameTo ref place

/-- **Names and references while what waits is worked off.** One reference has found the
declaration, and is resolved at last. -/
structure Releasing (finder : RefId) (work : List SynonymId) (s : Harvest) : Prop where
  founded : s.synonyms.Founded s.CameTo fun ref => s.isResolved ref = true ∨ ref = finder
  covered : s.synonyms.Covered s.CameTo (fun ref => s.isResolved ref = true) work
  came : ∀ ref, s.isResolved ref = true → ∃ place, s.CameTo ref place
  /-- What is to be done is a name that some reference came to which finds a declaration. -/
  work : ∀ id ∈ work, ∃ place, s.synonyms.place? id = some place ∧
    ∃ ref, (s.isResolved ref = true ∨ ref = finder) ∧ s.CameTo ref place

/-! ### Coming to a place -/

theorem cameTo_congr (h : s'.visits = s.visits) : s'.CameTo ref place ↔ s.CameTo ref place := by
  rw [CameTo, CameTo, h]

theorem cameTo_iff : s.CameTo ref place ↔ ∃ r, s.reference? ref = some r ∧ place ∈ r.waypoints := by
  rw [CameTo, visits, List.getElem?_map, ← reference?]
  cases s.reference? ref <;> simp

theorem CameTo.isSome_reference? (h : s.CameTo ref place) : (s.reference? ref).isSome := by
  obtain ⟨r, hr, -⟩ := cameTo_iff.mp h
  rw [hr]
  rfl

theorem cameTo_arrive {r : Reference} (hr : s.Fresh o q r) :
    (s.arrive o q r).CameTo ref place ↔ s.CameTo ref place ∨ ref = q.ref ∧ place = q.placeIn o := by
  rw [cameTo_iff, cameTo_iff, reference?_arrive]
  by_cases href : q.ref = ref
  · subst href
    simp [hr.reference]
  · simp [href, Ne.symm href]

theorem isResolved_arrive (s : Harvest) (o : Outline) (q : Query) (r : Reference) (ref : RefId) :
    (s.arrive o q r).isResolved ref = s.isResolved ref := by
  rw [isResolved, isResolved, targetOf, targetOf, reference?_arrive]
  split
  · cases s.reference? ref <;> rfl
  · rfl

/-- References that came nowhere yet and are not resolved are put behind the others. -/
theorem of_append {references : List Reference} (h : s'.references = s.references ++ references)
    (hnew : ∀ r ∈ references, r.target = none ∧ r.waypoints = []) :
    (∀ ref place, s'.CameTo ref place ↔ s.CameTo ref place) ∧
      ∀ ref, s'.isResolved ref = s.isResolved ref := by
  have hcases : ∀ ref, s'.reference? ref = s.reference? ref ∨
      s.reference? ref = none ∧ ∃ r ∈ references, s'.reference? ref = some r := by
    intro ref
    rw [reference?, reference?, h, List.getElem?_append]
    split
    · exact Or.inl rfl
    · next hlt =>
      have hnone := List.getElem?_eq_none (Nat.not_lt.mp hlt)
      cases hget : references[ref - s.references.length]? with
      | none => exact Or.inl hnone.symm
      | some r => exact Or.inr ⟨hnone, r, List.mem_of_getElem? hget, rfl⟩
  refine ⟨fun ref place => ?_, fun ref => ?_⟩
  · rw [cameTo_iff, cameTo_iff]
    rcases hcases ref with hsame | ⟨hnone, r, hr, hget⟩
    · rw [hsame]
    · simp [hnone, hget, (hnew r hr).2]
  · rw [isResolved, isResolved, targetOf, targetOf]
    rcases hcases ref with hsame | ⟨hnone, r, hr, hget⟩
    · rw [hsame]
    · simp [hnone, hget, (hnew r hr).1]

theorem Fresh.isResolved {r : Reference} (hr : s.Fresh o q r) : s.isResolved q.ref = false := by
  rw [Harvest.isResolved, targetOf_of_reference? hr.reference, hr.unresolved]
  rfl

/-! ### Resolving a reference -/

namespace Delivered

variable (h : Delivered key ref s s')
include h

theorem isResolved_of {r : RefId} (hr : s.isResolved r = true) : s'.isResolved r = true := by
  obtain ⟨k, hk⟩ := Option.isSome_iff_exists.mp hr
  rw [isResolved, h.resolves.targetOf hk]
  rfl

theorem isResolved_self (hsome : (s.reference? ref).isSome) : s'.isResolved ref = true := by
  by_cases hopen : s.targetOf ref = none
  · rw [isResolved, h.resolved hsome hopen]
    rfl
  · exact h.isResolved_of (Option.isSome_iff_ne_none.mpr hopen)

/-- Nothing else is resolved. -/
theorem of_isResolved {r : RefId} (hr : s'.isResolved r = true) :
    s.isResolved r = true ∨ r = ref := by
  by_cases href : r = ref
  · exact Or.inr href
  · rw [isResolved, h.others r href] at hr
    exact Or.inl hr

/-- What is resolved came to some place. -/
theorem exists_cameTo (hvisits : ∀ r p, s'.CameTo r p ↔ s.CameTo r p)
    (hcame : ∃ place, s.CameTo ref place)
    (hall : ∀ r, s.isResolved r = true → ∃ place, s.CameTo r place) {r : RefId}
    (hr : s'.isResolved r = true) : ∃ place, s'.CameTo r place := by
  simp only [hvisits]
  rcases h.of_isResolved hr with hr | rfl
  · exact hall r hr
  · exact hcame

end Delivered

/-! ### Working off what waits -/

namespace Releasing

/-- The list does not matter for the names and references. -/
theorem of_inStep (h : s.InStep) (hwork : ∀ id ∈ work, ∃ place, s.synonyms.place? id = some place ∧
    ∃ ref, (s.isResolved ref = true ∨ ref = finder) ∧ s.CameTo ref place) :
    s.Releasing finder work :=
  ⟨h.founded.mono (fun _ _ h => h) fun _ => Or.inl,
    h.covered.mono (fun _ _ h => h) (fun _ hf _ _ => Or.inl hf) fun _ h =>
      absurd h List.not_mem_nil, h.came, hwork⟩

/-- **Nothing is left to be done**, and the reference that found the declaration is resolved. -/
theorem inStep (h : s.Releasing finder []) (hfinder : s.isResolved finder = true) : s.InStep :=
  ⟨h.founded.mono (fun _ _ h => h) fun _ hf => hf.elim id fun hsame => hsame ▸ hfinder, h.covered,
    h.came⟩

/-- Names, places and targets are all that matters. -/
theorem of_same (h : s.Releasing finder work) (hsynonyms : s'.synonyms = s.synonyms)
    (hcame : ∀ ref place, s'.CameTo ref place ↔ s.CameTo ref place)
    (hresolved : ∀ ref, s'.isResolved ref = s.isResolved ref) : s'.Releasing finder work := by
  have hcame' : s'.CameTo = s.CameTo :=
    funext fun ref => funext fun place => propext (hcame ref place)
  obtain ⟨hfounded, hcovered, hcameTo, hwork⟩ := h
  refine ⟨?_, ?_, ?_, ?_⟩
  · simpa only [hsynonyms, hcame', hresolved] using hfounded
  · simpa only [hsynonyms, hcame', hresolved] using hcovered
  · simpa only [hcame', hresolved] using hcameTo
  · simpa only [hsynonyms, hcame', hresolved] using hwork

/-- **One reference that waited is resolved**, and what it passed is to be done. -/
theorem deliver (h : s.Releasing finder work) (hg : (s.graft? key).isSome) (d : Declaration)
    (hcame : ∃ place, s.CameTo ref place) :
    (s.deliver d key ref).Releasing finder
      (work ++ (s.deliver d key ref).openRecords ref work) := by
  have hdelivered := delivered_deliver hg d ref
  have hvisits : ∀ r p, (s.deliver d key ref).CameTo r p ↔ s.CameTo r p := fun r p =>
    cameTo_congr (sameRecords_deliver s d key ref).visits
  have hown : (s.deliver d key ref).isResolved ref = true := by
    obtain ⟨place, hplace⟩ := hcame
    exact hdelivered.isResolved_self hplace.isSome_reference?
  have hfounded : (s.deliver d key ref).synonyms.Founded (s.deliver d key ref).CameTo
      fun r => (s.deliver d key ref).isResolved r = true ∨ r = finder := by
    rw [hdelivered.synonyms]
    exact h.founded.mono (fun r p hc => (hvisits r p).mpr hc) fun r hf =>
      hf.imp_left hdelivered.isResolved_of
  refine ⟨hfounded, ?_, fun r => hdelivered.exists_cameTo hvisits hcame h.came, fun id hid => ?_⟩
  · rw [hdelivered.synonyms]
    refine h.covered.mono (fun r p hc => (hvisits r p).mp hc) (fun r hf i hi => ?_)
      fun id hid => List.mem_append_left _ hid
    rcases hdelivered.of_isResolved hf with hf | rfl
    · exact Or.inl hf
    · refine Or.inr ?_
      obtain ⟨place, hplace⟩ := h.founded.exists_place hi
      obtain ⟨record, hrecord, -⟩ := Option.map_eq_some_iff.mp hplace
      by_cases hmem : i ∈ work
      · exact Or.inr (List.mem_append_left _ hmem)
      · cases htarget : record.target with
        | some k => exact Or.inl ⟨record, hrecord, by rw [htarget]; rfl⟩
        | none =>
          refine Or.inr (List.mem_append_right _ ?_)
          rw [openRecords, hdelivered.synonyms, List.mem_filter, hrecord]
          exact ⟨hi, by simp [hmem, htarget]⟩
  · rcases List.mem_append.mp hid with hid | hid
    · obtain ⟨place, hplace, r, hf, hc⟩ := h.work id hid
      refine ⟨place, ?_, r, hf.imp_left hdelivered.isResolved_of, (hvisits r place).mpr hc⟩
      rw [hdelivered.synonyms]
      exact hplace
    · exact hfounded.exists_of_mem_trail (List.mem_filter.mp hid).1 (Or.inl hown)

/-- **One record is worked off.** -/
theorem release {id : SynonymId} (h : s.Releasing finder work) (hg : (s.graft? key).isSome)
    (d : Declaration) (hlast : work.getLast? = some id) :
    (Harvest.release d key id work.dropLast s).1.Releasing finder
        (Harvest.release d key id work.dropLast s).2 ∧
      ((Harvest.release d key id work.dropLast s).1.graft? key).isSome := by
  have hsplit : work.dropLast ++ [id] = work := List.dropLast_append_getLast? id hlast
  obtain ⟨hmarks, hready⟩ := Synonyms.marks_identify s.synonyms s.isResolved id key
  obtain ⟨place, hplace, hfound⟩ :=
    h.work id (hsplit ▸ List.mem_append_right _ (List.mem_singleton_self id))
  let marked : Harvest := { s with
    synonyms := (s.synonyms.identify s.isResolved id key).1
    events := s.events ++ (s.synonyms.identify s.isResolved id key).2.2 }
  have hmarked : marked.Releasing finder work.dropLast := by
    refine ⟨h.founded.marks hmarks fun p hp => ?_, h.covered.marks hmarks ?_ fun i hi => ?_,
      h.came, fun i hi => ?_⟩
    · obtain rfl : place = p := Option.some.inj (hplace.symm.trans hp)
      exact hfound
    · rw [hplace]
      rfl
    · rw [← hsplit] at hi
      exact (List.mem_append.mp hi).symm.imp_left List.mem_singleton.mp
    · obtain ⟨p, hp, hf⟩ := h.work i (List.mem_of_mem_dropLast hi)
      exact ⟨p, (hmarks.place?_eq i).trans hp, hf⟩
  have hfold := List.foldlRecOn
    (motive := fun state : Harvest × List SynonymId =>
      state.1.Releasing finder state.2 ∧ (state.1.graft? key).isSome ∧ state.1.visits = s.visits)
    (s.synonyms.identify s.isResolved id key).2.1
    (fun p ref =>
      (p.1.deliver d key ref, p.2 ++ (p.1.deliver d key ref).openRecords ref p.2))
    (b := (marked, work.dropLast)) ⟨hmarked, hg, rfl⟩ ?_
  · exact ⟨hfold.1, hfold.2.1⟩
  · rintro ⟨s₁, work₁⟩ ⟨h₁, hg₁, hvisits⟩ ref href
    obtain ⟨j, hwaits⟩ := hready ref href
    obtain ⟨p, hp⟩ := h.founded.waits ref j hwaits
    refine ⟨h₁.deliver hg₁ d ⟨p, (cameTo_congr hvisits).mpr hp⟩, ?_,
      (sameRecords_deliver s₁ d key ref).visits.trans hvisits⟩
    exact ((keeps_deliver s₁ d key ref).isSome_graft? key).trans hg₁

theorem worksOff {d : Declaration} (h : s.Releasing finder work) (hg : (s.graft? key).isSome)
    (hworks : WorksOff d key work s s') : s'.Releasing finder [] := by
  induction hworks with
  | done => exact h
  | next hlast _ ih =>
    obtain ⟨hnext, hg'⟩ := h.release hg _ hlast
    exact ih hnext hg'

theorem fulfil {id : SynonymId} (h : s.Releasing finder [id]) (hg : (s.graft? key).isSome)
    (htrails : s.synonyms.Unrepeated) : (s.fulfil id key).Releasing finder [] := by
  obtain ⟨e, he⟩ := Option.isSome_iff_exists.mp hg
  exact h.worksOff hg (worksOff_fulfil he htrails id)

end Releasing

/-! ### Looking for a name -/

namespace InStep

variable {r : Reference}

/-- Names, places and targets are all that matters. -/
theorem of_same (h : s.InStep) (hsynonyms : s'.synonyms = s.synonyms)
    (hcame : ∀ ref place, s'.CameTo ref place ↔ s.CameTo ref place)
    (hresolved : ∀ ref, s'.isResolved ref = s.isResolved ref) : s'.InStep := by
  have hcame' : s'.CameTo = s.CameTo :=
    funext fun ref => funext fun place => propext (hcame ref place)
  obtain ⟨hfounded, hcovered, hcameTo⟩ := h
  refine ⟨?_, ?_, ?_⟩
  · simpa only [hsynonyms, hcame', hresolved] using hfounded
  · simpa only [hsynonyms, hcame', hresolved] using hcovered
  · simpa only [hcame', hresolved] using hcameTo

theorem joins (s : Harvest) (o : Outline) (q : Query) (r : Reference) :
    Synonyms.Joins q.ref (q.placeIn o)
      (s.arrival o q r).2 s.synonyms (s.arrive o q r).synonyms := by
  obtain ⟨b, id, heq, hjoins⟩ :=
    Synonyms.exists_joins s.synonyms q.ref (q.placeIn o) (shownLine o q.name r)
  have hb : (s.arrive o q r).synonyms = b := congrArg Prod.fst heq
  have hid : (s.arrival o q r).2 = id := congrArg Prod.snd heq
  rwa [hb, hid]

theorem arrive (h : s.InStep) (hr : s.Fresh o q r) : (s.arrive o q r).InStep := by
  have hresolved : ∀ ref, (s.arrive o q r).isResolved ref = s.isResolved ref :=
    isResolved_arrive s o q r
  have hcame : ∀ ref place, (s.arrive o q r).CameTo ref place ↔
      s.CameTo ref place ∨ ref = q.ref ∧ place = q.placeIn o := fun _ _ => cameTo_arrive hr
  refine ⟨?_, ?_, fun ref hf => ?_⟩
  · simp only [hresolved]
    exact h.founded.joins (joins s o q r) (fun ref p hc => (hcame ref p).mpr (Or.inl hc))
      ((hcame _ _).mpr (Or.inr ⟨rfl, rfl⟩))
  · simp only [hresolved]
    refine h.covered.joins (joins s o q r)
      (fun i into habs => (h.founded.absorber i into habs).1) ?_
      fun ref p => (hcame ref p).mp
    rw [hr.isResolved]
    simp
  · rw [hresolved] at hf
    obtain ⟨place, hplace⟩ := h.came ref hf
    exact ⟨place, (hcame ref place).mpr (Or.inl hplace)⟩

/-- What a reference that came to a place waits for is a name that a reference came to which finds a
declaration, once the reference does. -/
theorem exists_arrival (h : s.InStep) (hr : s.Fresh o q r) :
    ∃ place, (s.arrive o q r).synonyms.place? (s.arrival o q r).2 = some place ∧
      ∃ ref, ((s.arrive o q r).isResolved ref = true ∨ ref = q.ref) ∧
        (s.arrive o q r).CameTo ref place := by
  have hjoins := joins s o q r
  obtain ⟨i, hplace, rfl | habs⟩ := hjoins.spot
  · exact ⟨_, hplace, q.ref, Or.inr rfl, (cameTo_arrive hr).mpr (Or.inr ⟨rfl, rfl⟩)⟩
  · have hstands := (hjoins.stands _).mpr (h.founded.absorber i _ habs).2
    obtain ⟨place, hplace⟩ := hstands.exists_place
    obtain ⟨ref, hf, hc⟩ := (h.arrive hr).founded.found _ place hstands hplace
    exact ⟨place, hplace, ref, Or.inl hf, hc⟩

theorem releasing (h : s.InStep) (hr : s.Fresh o q r) :
    (s.arrive o q r).Releasing q.ref [(s.arrival o q r).2] := by
  refine Releasing.of_inStep (h.arrive hr) fun id hid => ?_
  rw [List.mem_singleton.mp hid]
  exact h.exists_arrival hr

/-- **A reference whose declaration is left out** settles all names that it passed. -/
theorem giveUp (h : s.InStep) (href : s.CameTo ref place) (key : Key) :
    (s.giveUp ref key).InStep := by
  have hdelivered := delivered_leaveOut s key ref
  have hcame : ∀ r p, (s.leaveOut ref key).CameTo r p ↔ s.CameTo r p := fun _ _ =>
    cameTo_congr (sameRecords_leaveOut s ref key).visits
  have hown := hdelivered.isResolved_self href.isSome_reference?
  have hfounded : (s.leaveOut ref key).synonyms.Founded (s.leaveOut ref key).CameTo
      fun r => (s.leaveOut ref key).isResolved r = true := by
    rw [hdelivered.synonyms]
    exact h.founded.mono (fun r p hc => (hcame r p).mpr hc) fun _ => hdelivered.isResolved_of
  refine ⟨?_, ?_, fun r => hdelivered.exists_cameTo hcame ⟨place, href⟩ h.came⟩
  · exact hfounded.settleAll (fun i hi => hi) hown
  · refine Synonyms.Covered.settleAll ?_ ?_
    · rw [hdelivered.synonyms]
      refine h.covered.mono (fun r p hc => (hcame r p).mp hc) (fun r hf i hi => ?_)
        fun i hi => absurd hi List.not_mem_nil
      rcases hdelivered.of_isResolved hf with hf | rfl
      · exact Or.inl hf
      · exact Or.inr (Or.inr hi)
    · intro i hi
      obtain ⟨place, hplace⟩ := hfounded.exists_place hi
      rw [hplace]
      rfl

/-- A declaration is taken in, and what waits for it is resolved. -/
theorem meet {d : Declaration} (h : s.InStep) (hr : s.Fresh o q r) (htrails : s.synonyms.Unrepeated)
    (hg : s.graft? d.key = none)
    (hresolved : ((s.arrive o q r).meet o d (s.arrival o q r).2 (requestOf r)).1.isResolved q.ref =
      true) : ((s.arrive o q r).meet o d (s.arrival o q r).2 (requestOf r)).1.InStep := by
  obtain ⟨parentRefs, hmeet⟩ := exists_meet (s.arrive o q r) o d (s.arrival o q r).2 (requestOf r)
  obtain ⟨hreferences, hsynonyms⟩ := search_tookIn (s.arrive o q r) d (requestOf r) hg
  have hgraft : (((s.arrive o q r).tookIn d (requestOf r)).graft? d.key).isSome := by
    rw [graft?_tookIn (s := s.arrive o q r) (requestOf r) hg, if_pos rfl]
    rfl
  have htook : ((s.arrive o q r).tookIn d (requestOf r)).Releasing q.ref [(s.arrival o q r).2] := by
    refine (h.releasing hr).of_same hsynonyms (fun ref p => cameTo_congr ?_) fun ref => ?_
    · rw [visits, visits, hreferences]
    · rw [isResolved, isResolved, targetOf, targetOf, reference?, reference?, hreferences]
  let filled := ((s.arrive o q r).tookIn d (requestOf r)).fulfil (s.arrival o q r).2 d.key
  have hfilled : filled.Releasing q.ref [] :=
    htook.fulfil hgraft (by rw [hsynonyms]; exact htrails.wait _ _ _)
  have happended : ∀ t : Harvest, t.references = filled.references ++ mentioned o d →
      t.synonyms = filled.synonyms → t.isResolved q.ref = true → t.InStep := by
    intro t hreferences hsynonyms hown
    obtain ⟨hcame, hsame⟩ := of_append hreferences fun m hm =>
      ⟨(of_mem_mentioned hm).1, (of_mem_mentioned hm).2.1⟩
    exact (hfilled.of_same hsynonyms hcame hsame).inStep hown
  rw [hmeet] at hresolved ⊢
  exact happended _ rfl rfl hresolved

/-- **A look into a file** keeps names and references in step. -/
theorem looks (h : s.InStep) (hlooks : Looks s o q s' found)
    (hlooked : Looked world files external s o q s' found) (htrails : s.synonyms.Unrepeated) :
    s'.InStep := by
  -- where the name is declared, the reference is resolved
  have hresolved : ∀ {r d}, s.Fresh o q r → o.answer q.name q.external = .declared d →
      s'.isResolved q.ref = true := by
    intro r d hr ha
    obtain ⟨r', hr', -⟩ := hlooked.changes.reference hr.reference
    rw [isResolved, targetOf_of_reference? hr']
    cases htarget : r'.target with
    | some key => rfl
    | none =>
      rcases hlooked.own r' hr' htarget with ⟨hsame, hmem, -⟩ | ⟨-, -, -, hfollows⟩
      · obtain rfl := Option.some.inj (hsame.symm.trans hr.reference)
        exact absurd hmem hr.unseen
      · rw [ha] at hfollows
        exact absurd hfollows (by rintro ⟨⟩)
  cases hlooks with
  | passed => exact h
  | elsewhere hr ha => exact h.arrive hr
  | starred hr ha => exact h.arrive hr
  | unknown hr ha => exact (h.arrive hr).of_same rfl (fun _ _ => Iff.rfl) fun _ => rfl
  | leftOut hr ha hl =>
    exact (h.arrive hr).giveUp ((cameTo_arrive hr).mpr (Or.inr ⟨rfl, rfl⟩)) _
  | @again r d hr ha hl hg =>
    exact ((h.releasing hr).fulfil (s := s.arrive o q r) hg (htrails.wait _ _ _)).inStep
      (hresolved hr ha)
  | first hr ha hl hg => exact h.meet hr htrails hg (hresolved hr ha)

end InStep

end TypeGraft.Harvest
