import TypeGraft.Proofs.Harvest.Release

/-!
# What a search writes down

Three records of a search tell what it has done: the places that each reference has come to
(`TypeGraft.Harvest.visits`), the mentions that the references are (`TypeGraft.Harvest.mentions`),
and which of these are the bases of an interface. Resolving references changes none of them. So one
look into a file adds at most one place, at the end of the list of the reference that is looked for,
and it adds the mentions of a declaration only when it takes that in
(`TypeGraft.Harvest.Records`).
-/

namespace TypeGraft.Harvest

variable {s s' : Harvest} {o : Outline} {q : Query} {found : Found} {key : Key}

/-- The places that each reference has come to, in order. -/
def visits (s : Harvest) : List (List Waypoint) := s.references.map (·.waypoints)

/-- The references, without what is known of their declarations. -/
def mentions (s : Harvest) : List Reference := s.references.map (·.bare)

/-- A reference that comes to a place, as the list of places of all references. -/
def comeTo (visits : List (List Waypoint)) (ref : RefId) (place : Waypoint) :
    List (List Waypoint) := visits.modify ref (· ++ [place])

/-- The references of the bases of a declaration, when its references are numbered from some number
on. -/
def basesFrom (o : Outline) (d : Declaration) (first : Nat) : List RefId :=
  (((d.freeMentions o.source).zip ((List.range (mentioned o d).length).map (first + ·))).filter
    fun m => m.1.kind == .extends_).map (·.2)

/-- The references of all bases, with those of a declaration that is taken in. -/
def withBases (parentRefs : Table Key (List RefId)) (o : Outline) (d : Declaration) (first : Nat) :
    Table Key (List RefId) :=
  let noted := if d.isInterface then parentRefs.put d.key [] else parentRefs
  if (basesFrom o d first).isEmpty then noted
  else noted.adjust (· ++ basesFrom o d first) d.key

/-! ### Resolving references -/

/-- Two harvests with the same records. -/
structure SameRecords (s s' : Harvest) : Prop where
  visits : s'.visits = s.visits
  mentions : s'.mentions = s.mentions
  parentRefs : s'.parentRefs = s.parentRefs

namespace SameRecords

theorem refl (s : Harvest) : s.SameRecords s := ⟨rfl, rfl, rfl⟩

theorem trans {s'' : Harvest} (h : s.SameRecords s') (h' : s'.SameRecords s'') :
    s.SameRecords s'' :=
  ⟨h'.visits.trans h.visits, h'.mentions.trans h.mentions, h'.parentRefs.trans h.parentRefs⟩

theorem of_references (h : s'.references = s.references) (hp : s'.parentRefs = s.parentRefs) :
    s.SameRecords s' := ⟨congrArg (List.map _) h, congrArg (List.map _) h, hp⟩

end SameRecords

/-- A view of the references that a change of one of them does not touch. -/
theorem map_modifyReference {α : Type} (f : Reference → α) (change : Reference → Reference)
    (h : ∀ r, f (change r) = f r) (s : Harvest) (ref : RefId) :
    (s.modifyReference ref change).references.map f = s.references.map f := by
  refine List.ext_getElem? fun i => ?_
  rw [List.getElem?_map, List.getElem?_map, modifyReference, List.getElem?_modify]
  split
  · next hi =>
    subst hi
    cases s.references[ref]? with
    | none => rfl
    | some r => exact congrArg some (h r)
  · cases s.references[i]? <;> rfl

theorem sameRecords_resolve (s : Harvest) (ref : RefId) (key : Key) :
    s.SameRecords (s.resolve ref key) := by
  let resolved (r : Reference) : Reference := { r with target := some key }
  exact ⟨map_modifyReference _ resolved (fun _ => rfl) s ref,
    map_modifyReference _ resolved (fun _ => rfl) s ref, rfl⟩

/-- What is resolved unless it was. -/
theorem sameRecords_of_resolve {ref : RefId} {resolved : Bool}
    (h : s'.references = (if resolved then s else s.resolve ref key).references)
    (hp : s'.parentRefs = s.parentRefs) : s.SameRecords s' := by
  cases resolved with
  | true => exact SameRecords.of_references h hp
  | false => exact (sameRecords_resolve s ref key).trans (SameRecords.of_references h hp)

theorem sameRecords_leaveOut (s : Harvest) (ref : RefId) (key : Key) :
    s.SameRecords (s.leaveOut ref key) := by
  have hparents : (s.leaveOut ref key).parentRefs = s.parentRefs := by
    obtain ⟨_, _, heq⟩ := exists_leaveOut s ref key
    rw [heq]
  cases hr : s.reference? ref with
  | none =>
    rw [leaveOut_of_none hr]
    exact SameRecords.refl s
  | some r => exact sameRecords_of_resolve (search_leaveOut hr key).1 hparents

theorem sameRecords_link (s : Harvest) (ref : RefId) (key : Key) :
    s.SameRecords (s.link ref key) := by
  have hparents : (s.link ref key).parentRefs = s.parentRefs := by
    obtain ⟨_, _, _, _, _, _, heq⟩ := exists_link s ref key
    rw [heq]
  cases hr : s.reference? ref with
  | none =>
    rw [link_of_none (Or.inl hr)]
    exact SameRecords.refl s
  | some r =>
    cases hg : s.graft? key with
    | none =>
      rw [link_of_none (Or.inr hg)]
      exact SameRecords.refl s
    | some e => exact sameRecords_of_resolve (search_link hr (by rw [hg]; rfl)).1 hparents

theorem sameRecords_deliver (s : Harvest) (d : Declaration) (key : Key) (ref : RefId) :
    s.SameRecords (s.deliver d key ref) := by
  unfold deliver
  split
  · split
    · exact sameRecords_leaveOut s ref key
    · exact sameRecords_link s ref key
  · exact SameRecords.refl s

/-- **Resolving references** adds nothing to the records. -/
theorem sameRecords_fulfil (s : Harvest) (id : SynonymId) (key : Key) :
    s.SameRecords (s.fulfil id key) := by
  refine fulfil_rec (motive := fun s' => s.SameRecords s') ?_ ?_ (SameRecords.refl s)
  · exact fun _ _ h => h.trans (SameRecords.of_references rfl rfl)
  · exact fun _ d ref h => h.trans (sameRecords_deliver _ d key ref)

/-! ### Looking for a name -/

theorem visits_arrive (s : Harvest) (o : Outline) (q : Query) (r : Reference) :
    (s.arrive o q r).visits = comeTo s.visits q.ref (q.placeIn o) := by
  refine List.ext_getElem? fun i => ?_
  change (((s.references.modify q.ref _).map _)[i]?) = ((s.references.map _).modify q.ref _)[i]?
  rw [List.getElem?_map, List.getElem?_modify, List.getElem?_modify, List.getElem?_map]
  split
  · cases s.references[i]? <;> rfl
  · cases s.references[i]? <;> rfl

theorem mentions_arrive (s : Harvest) (o : Outline) (q : Query) (r : Reference) :
    (s.arrive o q r).mentions = s.mentions := by
  let come (r : Reference) : Reference := { r with waypoints := r.waypoints ++ [q.placeIn o] }
  exact map_modifyReference _ come (fun _ => rfl) s q.ref

/-- **What one look into a file writes down.** -/
inductive Records (s : Harvest) (o : Outline) (q : Query) : Harvest → Found → Prop where
  /-- Nothing, for a reference that is resolved or was here before. -/
  | nothing (h : ∀ r, ¬s.Fresh o q r) : Records s o q s .settled
  /-- The reference has come to the place. -/
  | visit {s' : Harvest} {found : Found} {r : Reference} (hr : s.Fresh o q r)
      (hkeeps : s.Keeps s') (hvisits : s'.visits = comeTo s.visits q.ref (q.placeIn o))
      (hmentions : s'.mentions = s.mentions) (hparents : s'.parentRefs = s.parentRefs)
      (hfound : ∀ queries, found ≠ .declared queries) : Records s o q s' found
  /-- It has come there, and the declaration is taken in with all that it mentions. -/
  | walk {s' : Harvest} {r : Reference} {d : Declaration} {queries : List Query} {newName : String}
      (hr : s.Fresh o q r) (ha : o.answer q.name q.external = .declared d)
      (hg : s.graft? d.key = none) (hfiles : s'.files = s.files)
      (hnames : s'.names = s.names ++ [(d.key, d, newName)])
      (hvisits : s'.visits = comeTo s.visits q.ref (q.placeIn o) ++ (mentioned o d).map fun _ => [])
      (hmentions : s'.mentions = s.mentions ++ mentioned o d)
      (hparents : s'.parentRefs = withBases s.parentRefs o d s.references.length)
      (hqueries : queries.map (·.name) = (mentioned o d).map (·.name)) :
      Records s o q s' (.declared queries)

theorem names_asked (o : Outline) (d : Declaration) (first : Nat) :
    (asked o d first).map (·.name) = (mentioned o d).map (·.name) := by
  have hcomp : ((fun query : Query => query.name) ∘ fun m : Mention × RefId =>
      (⟨m.2, m.1.name, false⟩ : Query)) = (fun m : Mention => m.name) ∘ Prod.fst := rfl
  have hlength : (d.freeMentions o.source).length ≤
      ((List.range (mentioned o d).length).map (first + ·)).length := by
    rw [List.length_map, List.length_range, mentioned, List.length_map]
  rw [asked, List.map_map, hcomp, ← List.map_map, List.map_fst_zip hlength, mentioned, List.map_map]
  rfl

theorem names_tookIn {d : Declaration} (request : Option String) (hg : s.graft? d.key = none) :
    (s.tookIn d request).names = s.names ++ [(d.key, d, (s.nameFor d request).2)] := by
  obtain ⟨_, _, heq⟩ := exists_tookIn s d request hg
  rw [heq, names, names, List.map_append]
  rfl

theorem files_tookIn {d : Declaration} (request : Option String) (hg : s.graft? d.key = none) :
    (s.tookIn d request).files = s.files := by
  obtain ⟨_, _, heq⟩ := exists_tookIn s d request hg
  rw [heq]

/-- Where a declaration is taken in, the references of its bases are written down. -/
theorem parentRefs_meet {d : Declaration} (record : SynonymId) (request : Option String)
    (hg : s.graft? d.key = none) : (s.meet o d record request).1.parentRefs =
      withBases s.parentRefs o d s.references.length := by
  let filled := (s.tookIn d request).fulfil record d.key
  let after := (filled.addReferences (mentioned o d)).1
  have hsame : (s.tookIn d request).SameRecords filled := sameRecords_fulfil _ _ _
  have hlength : filled.references.length = s.references.length := by
    have hmap := congrArg List.length hsame.visits
    rw [visits, visits, List.length_map, List.length_map] at hmap
    rw [hmap, (search_tookIn s d request hg).1]
  have htook : filled.parentRefs =
      if d.isInterface then s.parentRefs.put d.key [] else s.parentRefs := by
    obtain ⟨_, _, heq⟩ := exists_tookIn s d request hg
    rw [hsame.parentRefs, heq]
  have hmeet : (s.meet o d record request).1 =
      if (basesFrom o d filled.references.length).isEmpty then after
      else { after with
        parentRefs :=
          after.parentRefs.adjust (· ++ basesFrom o d filled.references.length) d.key } :=
    rfl
  rw [hmeet, hlength, withBases, ← htook]
  split <;> rfl

/-- What is written down where a declaration is taken in. -/
theorem records_meet {r : Reference} {d : Declaration} (hr : s.Fresh o q r)
    (ha : o.answer q.name q.external = .declared d) (hg : s.graft? d.key = none) :
    Records s o q ((s.arrive o q r).meet o d (s.arrival o q r).2 (requestOf r)).1
      (.declared ((s.arrive o q r).meet o d (s.arrival o q r).2 (requestOf r)).2) := by
  obtain ⟨parentRefs, hmeet⟩ :=
    exists_meet (s.arrive o q r) o d (s.arrival o q r).2 (requestOf r)
  let filled := ((s.arrive o q r).tookIn d (requestOf r)).fulfil (s.arrival o q r).2 d.key
  have hsame : ((s.arrive o q r).tookIn d (requestOf r)).SameRecords filled :=
    sameRecords_fulfil _ _ _
  have htook := (search_tookIn (s.arrive o q r) d (requestOf r) hg).1
  have hparents := parentRefs_meet (s := s.arrive o q r) (o := o) (s.arrival o q r).2
    (requestOf r) hg
  have hlength : (s.arrive o q r).references.length = s.references.length :=
    List.length_modify _ _ _
  rw [hlength] at hparents
  have hkeeps : ((s.arrive o q r).tookIn d (requestOf r)).Keeps filled := keeps_fulfil _ _ _
  have hnames := names_tookIn (s := s.arrive o q r) (requestOf r) hg
  have hfiles := files_tookIn (s := s.arrive o q r) (requestOf r) hg
  rw [hmeet] at hparents ⊢
  refine Records.walk hr ha hg (hkeeps.files.trans hfiles) (hkeeps.names.trans hnames) ?_ ?_
    hparents (names_asked o d _)
  · -- nothing is known yet of what is mentioned
    change (filled.references ++ mentioned o d).map _ = _
    rw [List.map_append]
    refine congrArg₂ (· ++ ·) (hsame.visits.trans ?_) ?_
    · rw [visits, htook]
      exact visits_arrive s o q r
    · exact List.map_congr_left fun m hm => (of_mem_mentioned hm).2.1
  · change (filled.references ++ mentioned o d).map _ = _
    rw [List.map_append]
    refine congrArg₂ (· ++ ·) (hsame.mentions.trans ?_) ?_
    · rw [mentions, htook]
      exact mentions_arrive s o q r
    · rw [mentioned, List.map_map]
      rfl

/-- **Looking for a name** writes down one visit at most, and what a declaration mentions when it
is taken in. -/
theorem Looks.records (h : Looks s o q s' found) : Records s o q s' found := by
  have hkeeps : ∀ r, s.Keeps (s.arrive o q r) := fun _ => ⟨rfl, rfl, rfl, rfl, rfl, rfl, rfl⟩
  have hcame : ∀ {r : Reference} {s₁ : Harvest} {found : Found}, s.Fresh o q r →
      (s.arrive o q r).Keeps s₁ → (s.arrive o q r).SameRecords s₁ →
        (∀ queries, found ≠ .declared queries) → Records s o q s₁ found :=
      fun {r} _ _ hr hk hsame hfound =>
    Records.visit hr ((hkeeps r).trans hk) (hsame.visits.trans (visits_arrive s o q r))
      (hsame.mentions.trans (mentions_arrive s o q r)) hsame.parentRefs hfound
  cases h with
  | passed h => exact Records.nothing h
  | elsewhere hr ha => exact hcame hr (Keeps.refl _) (SameRecords.refl _) (by simp)
  | starred hr ha => exact hcame hr (Keeps.refl _) (SameRecords.refl _) (by simp)
  | unknown hr ha =>
    exact hcame hr (keeps_note _ _ _ _ _) (SameRecords.of_references rfl rfl) (by simp)
  | leftOut hr ha hl =>
    exact hcame hr (keeps_giveUp _ _ _)
      ((sameRecords_leaveOut _ _ _).trans (SameRecords.of_references rfl rfl)) (by simp)
  | again hr ha hl hg => exact hcame hr (keeps_fulfil _ _ _) (sameRecords_fulfil _ _ _) (by simp)
  | first hr ha hl hg => exact records_meet hr ha hg

end TypeGraft.Harvest
