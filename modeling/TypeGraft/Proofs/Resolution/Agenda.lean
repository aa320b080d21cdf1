import TypeGraft.Proofs.Harvest.Tracking
import TypeGraft.Proofs.Resolution.Run

/-!
# The errands that are left in a search

A search looks for many references at a time, and each of them stands in several frames. What
is left to do for one of them can be read off the frames, the innermost first
(`TypeGraft.agenda`), and this is a state of its own lookup: whatever a lookup with these errands
comes to, the lookup of the reference from its beginning comes to as well.

* `TypeGraft.Frame.items`: what a frame has to do yet for its references, each of which stands
  there once.
* `TypeGraft.Searching`: what holds in every state of a search.
* `TypeGraft.Searching.step`: a step of the search keeps it.
-/

namespace TypeGraft

/-! ### What is left to do -/

/-- What a name comes to that may be in one of the modules of which everything is exported. -/
def Outline.starItem (o : Outline) (specifiers : List String) (q : Query) : RefId × List Errand :=
  (q.ref, specifiers.map (.follow o.path · q.name))

/-- What it comes to that a name is to be looked for in a file. -/
def Outline.visitItem (o : Outline) (q : Query) : RefId × List Errand :=
  (q.ref, [.visit (q.placeIn o)])

/-- What it comes to that a name is to be looked for in a module. -/
def Outline.followItem (o : Outline) (specifier : String) (q : Query) : RefId × List Errand :=
  (q.ref, [.follow o.path specifier q.name])

/-- What it comes to that a name was set aside. -/
def Outline.missingItem (o : Outline) (m : Query × Binding) : RefId × List Errand :=
  (m.1.ref, [.follow o.path m.2.specifier m.2.foreignName])

/-- **What a frame has to do yet** for its references. -/
def Frame.items (frame : Frame) : List (RefId × List Errand) :=
  let o := frame.outline
  match frame.stage with
  | .names queue missing starred =>
    queue.map o.visitItem ++ (missing.map o.missingItem ++ starred.map (o.starItem o.starExports))
  | .modules groups starred =>
    groups.flatMap (fun g => g.2.map (o.followItem g.1)) ++
      starred.map (o.starItem o.starExports)
  | .stars specifiers pending => pending.map (o.starItem specifiers)

/-- What it leaves to do that a name was looked for in a file. -/
def Found.items (o : Outline) (q : Query) : Found → List (RefId × List Errand)
  | .settled => []
  | .elsewhere binding => [o.missingItem (q, binding)]
  | .starred => [o.starItem o.starExports q]
  | .declared mentioned => mentioned.map o.visitItem

/-- The names in a frame that are looked for from outside of a file. -/
def Frame.outgoing (frame : Frame) : List Query :=
  match frame.stage with
  | .names _ _ starred => starred
  | .modules groups starred => groups.flatMap (·.2) ++ starred
  | .stars _ pending => pending

/-- What a name that was looked for leaves to do comes to what there was to do for the others. -/
theorem Found.items_perm_stage (found : Found) (o : Outline) (q : Query) (queue : List Query)
    (missing : List (Query × Binding)) (starred : List Query) :
    (found.items o q ++ (⟨o, .names queue missing starred⟩ : Frame).items).Perm
      (⟨o, found.stage q queue missing starred⟩ : Frame).items := by
  cases found with
  | settled => exact List.Perm.refl _
  | elsewhere binding =>
    simp only [Found.items, Found.stage, Frame.items, List.map_append, List.append_assoc]
    exact (List.perm_append_comm_assoc _ _ _).trans
      ((List.perm_append_comm_assoc _ _ _).append_left _)
  | starred =>
    refine List.perm_append_comm.trans (List.Perm.of_eq ?_)
    simp only [Found.items, Found.stage, Frame.items, List.map_append, List.append_assoc]
    rfl
  | declared mentioned =>
    simp only [Found.items, Found.stage, Frame.items, List.map_append, List.append_assoc]
    exact List.perm_append_comm_assoc _ _ _

/-- Only a name that is to be looked for in other modules goes out of the file. -/
theorem Found.mem_outgoing_stage {found : Found} {o : Outline} {q q' : Query} {queue : List Query}
    {missing : List (Query × Binding)} {starred : List Query}
    (h : q' ∈ (⟨o, found.stage q queue missing starred⟩ : Frame).outgoing) :
    q' ∈ starred ∨ q' = q ∧ found = .starred := by
  cases found with
  | settled | elsewhere | declared => exact Or.inl h
  | starred => exact (List.mem_append.mp h).imp_right fun h => ⟨List.mem_singleton.mp h, rfl⟩

/-- The errands of a reference. -/
def errandsFor (items : List (RefId × List Errand)) (ref : RefId) : List Errand :=
  (items.filter fun item => item.1 = ref).flatMap (·.2)

/-- **The errands that a search has left for a reference**, in order. -/
def agenda (frames : List Frame) (ref : RefId) : List Errand :=
  frames.flatMap fun frame => errandsFor frame.items ref

section

variable {items items' : List (RefId × List Errand)} {ref : RefId} {errands : List Errand}

theorem errandsFor_append (items items' : List (RefId × List Errand)) (ref : RefId) :
    errandsFor (items ++ items') ref = errandsFor items ref ++ errandsFor items' ref := by
  rw [errandsFor, List.filter_append, List.flatMap_append]
  rfl

theorem errandsFor_eq_nil (h : ref ∉ items.map Prod.fst) : errandsFor items ref = [] := by
  rw [errandsFor, List.filter_eq_nil_iff.mpr]
  · rfl
  · intro item hitem hsame
    exact h (List.mem_map.mpr ⟨item, hitem, of_decide_eq_true hsame⟩)

theorem errandsFor_cons_of_ne {item : RefId × List Errand} (h : item.1 ≠ ref) :
    errandsFor (item :: items) ref = errandsFor items ref := by
  rw [errandsFor, List.filter_cons_of_neg (by simpa using h)]
  rfl

theorem errandsFor_cons_self (h : ref ∉ items.map Prod.fst) :
    errandsFor ((ref, errands) :: items) ref = errands := by
  have hnil : errandsFor items ref = [] := errandsFor_eq_nil h
  rw [errandsFor] at hnil ⊢
  rw [List.filter_cons_of_pos (by simp), List.flatMap_cons, hnil, List.append_nil]

/-- A reference that stands in a frame once has the errands with which it stands there. -/
theorem errandsFor_of_mem (hnodup : (items.map Prod.fst).Nodup) (h : (ref, errands) ∈ items) :
    errandsFor items ref = errands := by
  induction items with
  | nil => exact absurd h List.not_mem_nil
  | cons item items ih =>
    obtain ⟨hnew, hrest⟩ := List.nodup_cons.mp hnodup
    rcases List.mem_cons.mp h with rfl | h
    · exact errandsFor_cons_self hnew
    · rw [errandsFor_cons_of_ne, ih hrest h]
      rintro rfl
      exact hnew (List.mem_map.mpr ⟨(item.1, errands), h, rfl⟩)

/-- The order of the references in a frame does not matter. -/
theorem errandsFor_perm (hnodup : (items.map Prod.fst).Nodup) (h : items.Perm items')
    (ref : RefId) : errandsFor items' ref = errandsFor items ref := by
  have hnodup' : (items'.map Prod.fst).Nodup := (h.map Prod.fst).nodup_iff.mp hnodup
  by_cases href : ref ∈ items.map Prod.fst
  · obtain ⟨⟨ref', errands⟩, hitem, rfl⟩ := List.mem_map.mp href
    rw [errandsFor_of_mem hnodup hitem, errandsFor_of_mem hnodup' (h.subset hitem)]
  · rw [errandsFor_eq_nil href,
      errandsFor_eq_nil fun h' => href ((h.map Prod.fst).symm.subset h')]

/-- Items of other references do not matter. -/
theorem errandsFor_filter {p : RefId × List Errand → Bool}
    (h : ∀ item ∈ items, item.1 = ref → p item = true) :
    errandsFor (items.filter p) ref = errandsFor items ref := by
  rw [errandsFor, errandsFor, List.filter_filter]
  refine congrArg (List.flatMap _) (List.filter_congr ?_)
  intro item hitem
  by_cases href : item.1 = ref
  · simp [href, h item hitem href]
  · simp [href]

theorem agenda_cons (frame : Frame) (frames : List Frame) (ref : RefId) :
    agenda (frame :: frames) ref = errandsFor frame.items ref ++ agenda frames ref := rfl

theorem agenda_eq_nil {frames : List Frame} (h : ∀ f ∈ frames, ref ∉ f.items.map Prod.fst) :
    agenda frames ref = [] :=
  List.flatMap_eq_nil_iff.mpr fun f hf => errandsFor_eq_nil (h f hf)

theorem map_fst_visitItem (o : Outline) (queries : List Query) :
    (queries.map o.visitItem).map Prod.fst = queries.map (·.ref) := by
  rw [List.map_map]
  rfl

theorem map_fst_followItem (o : Outline) (specifier : String) (queries : List Query) :
    (queries.map (o.followItem specifier)).map Prod.fst = queries.map (·.ref) := by
  rw [List.map_map]
  rfl

theorem map_fst_starItem (o : Outline) (specifiers : List String) (queries : List Query) :
    (queries.map (o.starItem specifiers)).map Prod.fst = queries.map (·.ref) := by
  rw [List.map_map]
  rfl

end

/-! ### What an answer leaves to do -/

section

variable {o : Outline} {q : Query} {found : Found} {ref : RefId}

theorem Found.mem_map_fst_items (h : ref ∈ (found.items o q).map Prod.fst) :
    ref = q.ref ∨ ref ∈ found.queries.map (·.ref) := by
  cases found with
  | settled => exact absurd h List.not_mem_nil
  | elsewhere binding => exact Or.inl (List.mem_singleton.mp h)
  | starred => exact Or.inl (List.mem_singleton.mp h)
  | declared mentioned =>
    rw [Found.items, map_fst_visitItem] at h
    exact Or.inr h

theorem Found.nodup_map_fst_items (h : (found.queries.map (·.ref)).Nodup) :
    ((found.items o q).map Prod.fst).Nodup := by
  cases found with
  | settled => exact List.nodup_nil
  | elsewhere binding => exact List.nodup_singleton _
  | starred => exact List.nodup_singleton _
  | declared mentioned =>
    rw [Found.items, map_fst_visitItem]
    exact h

theorem Found.visitItem_mem {query : Query} (h : query ∈ found.queries) :
    o.visitItem query ∈ found.items o q := by
  cases found with
  | declared mentioned => exact List.mem_map.mpr ⟨query, h, rfl⟩
  | settled => exact absurd h List.not_mem_nil
  | elsewhere binding => exact absurd h List.not_mem_nil
  | starred => exact absurd h List.not_mem_nil

/-- A reference that goes where the file sends it has the errands of the file. -/
theorem Found.Follows.errandsFor_items (h : found.Follows (o.answer q.name q.external)) :
    errandsFor (found.items o q) q.ref = o.errands q.name q.external := by
  unfold Outline.errands
  generalize o.answer q.name q.external = answer at h
  cases h with
  | elsewhere binding => exact errandsFor_cons_self List.not_mem_nil
  | starred => exact errandsFor_cons_self List.not_mem_nil
  | unknown => rfl

end

/-! ### What holds in every state -/

/-- **An orderly frame**: it is about a file that was read, and each reference stands in it
once. -/
structure Frame.Orderly (s : Harvest) (frame : Frame) : Prop where
  file : s.files.get? frame.outline.path = some frame.outline
  nodup : (frame.items.map Prod.fst).Nodup
  valid : ∀ item ∈ frame.items, (s.reference? item.1).isSome
  external : ∀ q ∈ frame.outgoing, q.external = true

/-- **What holds in every state of a search.** -/
structure Searching (world : World) (files : String → Option Outline) (external : Bool)
    (r : Resolution) : Prop where
  grounded : r.harvest.Grounded
  sources : ∀ path, r.harvest.sources world path = files path
  tracked : r.harvest.Tracked world files external
  settled : r.harvest.synonyms.Settled (Declares files)
  orderly : ∀ frame ∈ r.frames, frame.Orderly r.harvest
  pursued : ∀ ref x, r.harvest.reference? ref = some x → x.target = none → ∀ result,
    Lookup world files x.waypoints (agenda r.frames ref) result →
      Lookup world files [] [.visit (x.origin external)] result

variable {world : World} {files : String → Option Outline} {external : Bool}
  {s s' : Harvest} {frame : Frame} {frames rest : List Frame} {o : Outline}

theorem Frame.Orderly.changes (h : frame.Orderly s) (hc : Harvest.Changes world s s') :
    frame.Orderly s' := by
  exact ⟨hc.file h.file, h.nodup, fun item hitem => hc.isSome_reference? (h.valid item hitem),
    h.external⟩

/-- A reference that is not there yet does not stand in a frame. -/
theorem Frame.Orderly.not_mem (h : frame.Orderly s) {ref : RefId} (href : s.reference? ref = none) :
    ref ∉ frame.items.map Prod.fst := by
  intro hmem
  obtain ⟨item, hitem, rfl⟩ := List.mem_map.mp hmem
  have hsome := h.valid item hitem
  rw [href] at hsome
  exact absurd hsome (by simp)

/-- **The names that were set aside** are those that are then looked for in the modules. -/
theorem Harvest.groups_perm {γ : Type} (s : Harvest) (f : String → Query → γ)
    (missing : List (Query × Binding)) :
    ((s.groups missing).flatMap fun g => g.2.map (f g.1)).Perm
      ((missing.filter fun m => !s.isResolved m.1.ref).map fun m =>
        f m.2.specifier ⟨m.1.ref, m.2.foreignName, true⟩) := by
  unfold groups
  dsimp only
  generalize missing.filter (fun m => !s.isResolved m.1.ref) = items
  induction items using List.reverseRecOn with
  | nil => exact List.Perm.refl _
  | append_singleton items m ih =>
    obtain ⟨query, binding⟩ := m
    rw [List.foldl_append, List.map_append]
    refine (Table.flatMap_put_perm _ _ _ _ [f binding.specifier ⟨query.ref, binding.foreignName,
      true⟩] ?_ ?_).trans (ih.append_right _)
    · intro hnew
      rw [hnew]
      rfl
    · intro old hold
      rw [hold]
      exact List.map_append

namespace Searching

theorem file_eq (h : Searching world files external ⟨s, frames⟩) {path : String} {o : Outline}
    (ho : s.files.get? path = some o) : files path = some o := by
  rw [← h.sources path]
  exact Harvest.sources_of_get? ho

/-- **A step that looks for no name** keeps what holds, if it leaves each reference with the
errands that it had. -/
theorem reframe (h : Searching world files external ⟨s, frames⟩)
    (hc : Harvest.Changes world s s') (hreferences : s'.references = s.references)
    (hsynonyms : s'.synonyms = s.synonyms) {frames' : List Frame}
    (horderly : ∀ frame ∈ frames', frame.Orderly s')
    (hagenda : ∀ ref x, s.reference? ref = some x → x.target = none → ∀ result,
      Lookup world files x.waypoints (agenda frames' ref) result →
        Lookup world files x.waypoints (agenda frames ref) result) :
    Searching world files external ⟨s', frames'⟩ := by
  refine ⟨h.grounded.changes hc, fun path => (hc.sources path).trans (h.sources path),
    h.tracked.of_search hreferences hsynonyms, ?_, horderly, ?_⟩
  · change s'.synonyms.Settled (Declares files)
    rw [hsynonyms]
    exact h.settled
  · intro ref x hx hopen result hl
    have hx : s.reference? ref = some x := by
      rw [Harvest.reference?, ← hreferences]
      exact hx
    exact h.pursued ref x hx hopen result (hagenda ref x hx hopen result hl)

/-! ### Going into a module -/

/-- **Going into a module** takes an errand off each reference that is looked for there. -/
theorem enter (h : Searching world files external ⟨s, frames⟩) {specifier : String}
    {queries : List Query} {r' : Resolution}
    (henter : Resolution.Enters world s frame rest specifier queries (.running r'))
    (horderly : ∀ f ∈ frame :: rest, f.Orderly s) (hnodup : (queries.map (·.ref)).Nodup)
    (hvalid : ∀ q ∈ queries, (s.reference? q.ref).isSome)
    (hexternal : ∀ q ∈ queries, q.external = true)
    (hagenda : ∀ ref x, s.reference? ref = some x → x.target = none → agenda frames ref =
      errandsFor (queries.map (frame.outline.followItem specifier)) ref ++
        agenda (frame :: rest) ref) :
    Searching world files external r' ∧ Harvest.Changes world s r'.harvest := by
  -- a query that is looked for in the module, or a reference that has nothing to do there
  have hcases : ∀ ref, ref ∉ queries.map (·.ref) ∨ ∃ q ∈ queries, q.ref = ref := by
    intro ref
    by_cases href : ref ∈ queries.map (·.ref)
    · exact Or.inr (List.mem_map.mp href)
    · exact Or.inl href
  have hfollow : ∀ q ∈ queries,
      errandsFor (queries.map (frame.outline.followItem specifier)) q.ref =
        [.follow frame.outline.path specifier q.name] := fun q hq =>
    errandsFor_of_mem (by rw [map_fst_followItem]; exact hnodup) (List.mem_map.mpr ⟨q, hq, rfl⟩)
  cases henter with
  | nowhere hmodule =>
    obtain ⟨hc, hreferences, hsynonyms, hlocate, -⟩ :=
      Harvest.changes_of_moduleOutline h.grounded hmodule
    refine ⟨h.reframe hc hreferences hsynonyms (fun f hf => (horderly f hf).changes hc) ?_, hc⟩
    intro ref x hx hopen result hl
    rw [hagenda ref x hx hopen]
    rcases hcases ref with href | ⟨q, hq, rfl⟩
    · rw [errandsFor_eq_nil (by rw [map_fst_followItem]; exact href)]
      exact hl
    · rw [hfollow q hq]
      exact Lookup.astray hlocate hl
  | @file s' outline hmodule =>
    obtain ⟨hc, hreferences, hsynonyms, hlocate, hfile⟩ :=
      Harvest.changes_of_moduleOutline h.grounded hmodule
    have hitems : (⟨outline, .names queries [] []⟩ : Frame).items = queries.map outline.visitItem :=
      List.append_nil _
    refine ⟨h.reframe hc hreferences hsynonyms ?_ ?_, hc⟩
    · intro f hf
      rcases List.mem_cons.mp hf with rfl | hf
      · refine ⟨hfile outline rfl, by rw [hitems, map_fst_visitItem]; exact hnodup,
          ?_, fun _ hq => absurd hq List.not_mem_nil⟩
        intro item hitem
        rw [hitems] at hitem
        obtain ⟨q, hq, rfl⟩ := List.mem_map.mp hitem
        exact hc.isSome_reference? (hvalid q hq)
      · exact (horderly f hf).changes hc
    · intro ref x hx hopen result hl
      rw [hagenda ref x hx hopen]
      rw [agenda_cons, hitems] at hl
      rcases hcases ref with href | ⟨q, hq, rfl⟩
      · rw [errandsFor_eq_nil (by rw [map_fst_visitItem]; exact href)] at hl
        rw [errandsFor_eq_nil (by rw [map_fst_followItem]; exact href)]
        exact hl
      · rw [errandsFor_of_mem (by rw [map_fst_visitItem]; exact hnodup)
          (List.mem_map.mpr ⟨q, hq, rfl⟩), Query.placeIn, hexternal q hq] at hl
        rw [hfollow q hq]
        exact Lookup.through hlocate hl

/-! ### Looking for a name -/

/-- The errands of the name that is looked for next. -/
theorem agenda_names {q : Query} {queue : List Query} {missing : List (Query × Binding)}
    {starred : List Query}
    (h : (⟨o, .names (q :: queue) missing starred⟩ : Frame).Orderly s) :
    agenda (⟨o, .names (q :: queue) missing starred⟩ :: rest) q.ref =
      .visit (q.placeIn o) :: agenda rest q.ref := by
  have hnotin : q.ref ∉ (⟨o, .names queue missing starred⟩ : Frame).items.map Prod.fst :=
    (List.nodup_cons.mp h.nodup).1
  exact congrArg (· ++ agenda rest q.ref) (errandsFor_cons_self hnotin)

/-- Looking for the next name comes to one of the cases. -/
theorem looks_of_look {q : Query} {queue : List Query} {missing : List (Query × Binding)}
    {starred : List Query} {found : Found}
    (h : Searching world files external ⟨s, ⟨o, .names (q :: queue) missing starred⟩ :: rest⟩)
    (hlook : s.look o q = (s', found)) : Harvest.Looks s o q s' found := by
  have hfile : s.files.get? o.path = some o := (h.orderly _ List.mem_cons_self).file
  have hlooks := Harvest.looks_look (h.grounded.outline _ o hfile).2 (h.grounded.mirrors hfile) q
  rw [hlook] at hlooks
  exact hlooks

/-- What becomes of the references when the next name is looked for. -/
theorem looked {q : Query} {queue : List Query} {missing : List (Query × Binding)}
    {starred : List Query} {found : Found}
    (h : Searching world files external ⟨s, ⟨o, .names (q :: queue) missing starred⟩ :: rest⟩)
    (hlook : s.look o q = (s', found)) :
    Harvest.Looked world files external s o q s' found := by
  have horderly := h.orderly _ List.mem_cons_self
  have hfile : s.files.get? o.path = some o := horderly.file
  have hfiles : files o.path = some o := h.file_eq hfile
  refine Harvest.looked_of_looks (h.looks_of_look hlook) h.tracked h.settled h.grounded
    hfile hfiles ?_
  intro r d hr hd
  refine h.pursued q.ref r hr.reference hr.unresolved (some d.key) ?_
  rw [agenda_names horderly]
  exact Lookup.found hr.unseen hfiles hd

/-- References that were not there before do not stand in a frame. -/
theorem new_not_mem {q : Query} {queue : List Query} {missing : List (Query × Binding)}
    {starred : List Query} {found : Found}
    (h : (⟨o, .names (q :: queue) missing starred⟩ : Frame).Orderly s)
    (hlooked : Harvest.Looked world files external s o q s' found) :
    ∀ query ∈ found.queries,
      query.ref ∉ (⟨o, .names queue missing starred⟩ : Frame).items.map Prod.fst := by
  intro query hquery href
  have hnew : s.reference? query.ref = none := List.getElem?_eq_none (hlooked.bound query hquery).1
  exact h.not_mem hnew (List.mem_cons_of_mem _ href)

/-- What a name is sent to do, and what is left for the others, is listed once for each
reference. -/
theorem nodup_found {q : Query} {queue : List Query} {missing : List (Query × Binding)}
    {starred : List Query} {found : Found}
    (h : (⟨o, .names (q :: queue) missing starred⟩ : Frame).Orderly s)
    (hlooked : Harvest.Looked world files external s o q s' found) :
    ((found.items o q ++ (⟨o, .names queue missing starred⟩ : Frame).items).map
      Prod.fst).Nodup := by
  obtain ⟨hnotin, hnodup⟩ := List.nodup_cons.mp h.nodup
  rw [List.map_append]
  refine List.nodup_append'.mpr ⟨Found.nodup_map_fst_items hlooked.nodup, hnodup, ?_⟩
  intro ref href href'
  rcases Found.mem_map_fst_items href with rfl | href
  · exact hnotin href'
  · obtain ⟨query, hquery, rfl⟩ := List.mem_map.mp href
    exact new_not_mem h hlooked query hquery href'

/-- The frame stays orderly when a name is looked for. -/
theorem orderly_found {q : Query} {queue : List Query} {missing : List (Query × Binding)}
    {starred : List Query} {found : Found}
    (h : (⟨o, .names (q :: queue) missing starred⟩ : Frame).Orderly s)
    (hlooked : Harvest.Looked world files external s o q s' found) :
    (⟨o, found.stage q queue missing starred⟩ : Frame).Orderly s' := by
  have hc := hlooked.changes
  have hitems := found.items_perm_stage o q queue missing starred
  refine ⟨hc.file h.file, (hitems.map Prod.fst).nodup_iff.mp (nodup_found h hlooked), ?_, ?_⟩
  · intro item hitem
    rcases List.mem_append.mp (hitems.symm.subset hitem) with hitem | hitem
    · rcases Found.mem_map_fst_items (List.mem_map.mpr ⟨item, hitem, rfl⟩) with heq | hmem
      · rw [heq]
        exact hc.isSome_reference? (h.valid _ List.mem_cons_self)
      · obtain ⟨query, hquery, heq⟩ := List.mem_map.mp hmem
        rw [← heq, Harvest.reference?, List.getElem?_eq_getElem (hlooked.bound query hquery).2]
        rfl
    · exact hc.isSome_reference? (h.valid item (List.mem_cons_of_mem _ hitem))
  · intro q' hq'
    rcases Found.mem_outgoing_stage hq' with hstarred | ⟨rfl, hfound⟩
    · exact h.external q' hstarred
    · exact hlooked.starred hfound

/-- **Looking for a name** in the innermost frame. What is left to do is what the file answers,
and what was left for the other references. -/
theorem names {q : Query} {queue : List Query} {missing : List (Query × Binding)}
    {starred : List Query} {found : Found}
    (h : Searching world files external ⟨s, ⟨o, .names (q :: queue) missing starred⟩ :: rest⟩)
    (hlook : s.look o q = (s', found)) :
    Searching world files external ⟨s', ⟨o, found.stage q queue missing starred⟩ :: rest⟩ ∧
      Harvest.Changes world s s' := by
  have horderly := h.orderly _ List.mem_cons_self
  have hlooked := h.looked hlook
  -- what was left to do for the name, and for all others
  let others : Frame := ⟨o, .names queue missing starred⟩
  have hnotin : q.ref ∉ others.items.map Prod.fst := (List.nodup_cons.mp horderly.nodup).1
  have hown : agenda (⟨o, .names (q :: queue) missing starred⟩ :: rest) q.ref =
      .visit (q.placeIn o) :: agenda rest q.ref := agenda_names horderly
  have hold : ∀ ref, ref ≠ q.ref → agenda (⟨o, .names (q :: queue) missing starred⟩ :: rest) ref =
      errandsFor others.items ref ++ agenda rest ref := fun ref href =>
    congrArg (· ++ agenda rest ref) (errandsFor_cons_of_ne href.symm)
  -- the references that were added do not stand anywhere yet
  have hnewRef : ∀ query ∈ found.queries, s.reference? query.ref = none := fun query hquery =>
    List.getElem?_eq_none (hlooked.bound query hquery).1
  have hunknown : ∀ query ∈ found.queries, ∀ f ∈ rest, query.ref ∉ f.items.map Prod.fst :=
    fun query hquery f hf =>
      (h.orderly f (List.mem_cons_of_mem _ hf)).not_mem (hnewRef query hquery)
  have hagenda : ∀ ref, agenda (⟨o, found.stage q queue missing starred⟩ :: rest) ref =
      errandsFor (found.items o q) ref ++ (errandsFor others.items ref ++ agenda rest ref) := by
    intro ref
    rw [agenda_cons, errandsFor_perm (nodup_found horderly hlooked)
      (found.items_perm_stage o q queue missing starred), errandsFor_append, List.append_assoc]
  refine ⟨⟨h.grounded.changes hlooked.changes, ?_, hlooked.tracked, hlooked.settled,
    ?_, ?_⟩, hlooked.changes⟩
  · intro path
    exact (hlooked.changes.sources path).trans (h.sources path)
  · intro f hf
    rcases List.mem_cons.mp hf with rfl | hf
    · exact orderly_found horderly hlooked
    · exact (h.orderly f (List.mem_cons_of_mem _ hf)).changes hlooked.changes
  · intro ref x hx hopen result hl
    rw [hagenda ref] at hl
    by_cases href : ref = q.ref
    · subst href
      rw [errandsFor_eq_nil hnotin, List.nil_append] at hl
      rcases hlooked.own x hx hopen with ⟨hr, hmem, rfl⟩ | ⟨r, hr, rfl, hfollows⟩
      · refine h.pursued _ x hr hopen result ?_
        rw [hown]
        exact Lookup.again hmem hl
      · rw [hfollows.errandsFor_items] at hl
        refine h.pursued _ r hr.reference hr.unresolved result ?_
        rw [hown]
        refine Lookup.onward hr.unseen (h.file_eq horderly.file) ?_ hl
        intro d hd
        have hd : o.answer q.name q.external = .declared d := hd
        rw [hd] at hfollows
        cases hfollows
    · rcases hlooked.others ref x href hx hopen with hr | ⟨query, hquery, rfl, hway, horigin⟩
      · refine h.pursued ref x hr hopen result ?_
        rw [hold ref href]
        rw [errandsFor_eq_nil, List.nil_append] at hl
        · exact hl
        · intro hmem
          rcases Found.mem_map_fst_items hmem with heq | hmem
          · exact href heq
          · obtain ⟨query, hquery, rfl⟩ := List.mem_map.mp hmem
            rw [hnewRef query hquery] at hr
            exact absurd hr (by simp)
      · rw [errandsFor_of_mem (Found.nodup_map_fst_items hlooked.nodup)
          (Found.visitItem_mem hquery),
          errandsFor_eq_nil (new_not_mem horderly hlooked query hquery),
          agenda_eq_nil (hunknown query hquery), hway, ← horigin] at hl
        exact hl

/-! ### The steps -/

/-- When no names are left in the queue, those that were set aside are looked for in their
modules. -/
theorem regroup {missing : List (Query × Binding)} {starred : List Query}
    (h : Searching world files external ⟨s, ⟨o, .names [] missing starred⟩ :: rest⟩) :
    Searching world files external ⟨s, ⟨o, .modules (s.groups missing) starred⟩ :: rest⟩ := by
  have horderly := h.orderly _ List.mem_cons_self
  let isOpen : RefId × List Errand → Bool := fun item => !s.isResolved item.1
  let front := missing.map o.missingItem
  let back := starred.map (o.starItem o.starExports)
  have hgroups : (front.filter isOpen ++ back).Perm
      (⟨o, .modules (s.groups missing) starred⟩ : Frame).items := by
    refine List.Perm.append_right _ ?_
    rw [List.filter_map]
    exact (s.groups_perm o.followItem missing).symm
  have hsub : (front.filter isOpen ++ back).Sublist (front ++ back) :=
    List.filter_sublist.append_right _
  have hnodup : ((front.filter isOpen ++ back).map Prod.fst).Nodup :=
    (hsub.map Prod.fst).nodup horderly.nodup
  refine h.reframe Relation.ReflTransGen.refl rfl rfl ?_ ?_
  · intro f hf
    rcases List.mem_cons.mp hf with rfl | hf
    · refine ⟨horderly.file, (hgroups.map Prod.fst).nodup_iff.mp hnodup, fun item hitem =>
        horderly.valid item (hsub.subset (hgroups.symm.subset hitem)), ?_⟩
      intro q hq
      rcases List.mem_append.mp hq with hq | hq
      · obtain ⟨g, hg, hq⟩ := List.mem_flatMap.mp hq
        have hmem : q ∈ (s.groups missing).flatMap fun g => g.2.map fun q => q :=
          List.mem_flatMap.mpr ⟨g, hg, by rw [List.map_id']; exact hq⟩
        obtain ⟨m, -, rfl⟩ := List.mem_map.mp
          ((s.groups_perm (fun _ q => q) missing).subset hmem)
        rfl
      · exact horderly.external q hq
    · exact h.orderly f (List.mem_cons_of_mem _ hf)
  · intro ref x hx hopen result hl
    rw [agenda_cons, errandsFor_perm hnodup hgroups, errandsFor_append, errandsFor_filter,
      ← errandsFor_append] at hl
    · exact hl
    · rintro item - rfl
      have hres : s.isResolved item.1 = false := by
        rw [Harvest.isResolved, Harvest.targetOf_of_reference? hx, hopen]
        rfl
      change (!s.isResolved item.1) = true
      rw [hres]
      rfl

/-- The names that come from one module are looked for there. -/
theorem module {specifier : String} {queries : List Query} {groups : List (String × List Query)}
    {starred : List Query} {r' : Resolution}
    (h : Searching world files external
      ⟨s, ⟨o, .modules ((specifier, queries) :: groups) starred⟩ :: rest⟩)
    (henter : Resolution.Enters world s ⟨o, .modules groups starred⟩ rest specifier queries
      (.running r')) :
    Searching world files external r' ∧ Harvest.Changes world s r'.harvest := by
  have horderly := h.orderly _ List.mem_cons_self
  let others : Frame := ⟨o, .modules groups starred⟩
  have hitems : (⟨o, .modules ((specifier, queries) :: groups) starred⟩ : Frame).items =
      queries.map (o.followItem specifier) ++ others.items := by
    simp only [Frame.items, others, List.flatMap_cons, List.append_assoc]
  have hnodup := horderly.nodup
  rw [hitems, List.map_append, map_fst_followItem] at hnodup
  have hvalid : ∀ item ∈ queries.map (o.followItem specifier) ++ others.items,
      (s.reference? item.1).isSome := by
    rw [← hitems]
    exact horderly.valid
  refine h.enter henter ?_ (List.nodup_append'.mp hnodup).1
    (fun q hq => hvalid _ (List.mem_append_left _ (List.mem_map.mpr ⟨q, hq, rfl⟩)))
    (fun q hq => horderly.external q ?_) ?_
  · intro f hf
    rcases List.mem_cons.mp hf with rfl | hf
    · refine ⟨horderly.file, (List.nodup_append'.mp hnodup).2.1, fun item hitem => hvalid item
        (List.mem_append_right _ hitem), fun q hq => horderly.external q ?_⟩
      rcases List.mem_append.mp hq with hq | hq
      · exact List.mem_append_left _ (List.mem_append_right _ hq)
      · exact List.mem_append_right _ hq
    · exact h.orderly f (List.mem_cons_of_mem _ hf)
  · exact List.mem_append_left _ (List.mem_append_left _ hq)
  · intro ref x hx hopen
    rw [agenda_cons, hitems, errandsFor_append, List.append_assoc]
    rfl

/-- A reference that is not resolved is among those that are still missing. -/
theorem errandsFor_stillMissing (pending : List Query) (item : Query → RefId × List Errand)
    (hitem : ∀ q, (item q).1 = q.ref) {ref : RefId} {x : Reference}
    (hx : s.reference? ref = some x) (hopen : x.target = none) :
    errandsFor ((s.stillMissing pending).map item) ref = errandsFor (pending.map item) ref := by
  have hfilter : (s.stillMissing pending).map item =
      (pending.map item).filter fun i => !s.isResolved i.1 := by
    rw [List.filter_map, Harvest.stillMissing]
    refine congrArg (List.map item) (List.filter_congr ?_)
    intro q _
    rw [Function.comp_apply, hitem]
  rw [hfilter]
  refine errandsFor_filter ?_
  rintro i - rfl
  rw [Harvest.isResolved, Harvest.targetOf_of_reference? hx, hopen]
  rfl

/-- Names that are still missing are looked for in the next of the modules of which everything
is exported. -/
theorem star {specifier : String} {specifiers : List String} {pending : List Query}
    {r' : Resolution}
    (h : Searching world files external ⟨s, ⟨o, .stars (specifier :: specifiers) pending⟩ :: rest⟩)
    (henter : Resolution.Enters world s ⟨o, .stars specifiers (s.stillMissing pending)⟩
      rest specifier (s.stillMissing pending) (.running r')) :
    Searching world files external r' ∧ Harvest.Changes world s r'.harvest := by
  have horderly := h.orderly _ List.mem_cons_self
  have hsub : (s.stillMissing pending).Sublist pending := List.filter_sublist
  have hnodup : ((s.stillMissing pending).map (·.ref)).Nodup := by
    refine (hsub.map _).nodup ?_
    rw [← map_fst_starItem o (specifier :: specifiers)]
    exact horderly.nodup
  have hvalid : ∀ q ∈ s.stillMissing pending, (s.reference? q.ref).isSome := fun q hq =>
    horderly.valid _ (List.mem_map.mpr ⟨q, hsub.subset hq, rfl⟩)
  refine h.enter henter ?_ hnodup hvalid (fun q hq => horderly.external q (hsub.subset hq)) ?_
  · intro f hf
    rcases List.mem_cons.mp hf with rfl | hf
    · refine ⟨horderly.file, (map_fst_starItem _ _ _).symm ▸ hnodup, ?_,
        fun q hq => horderly.external q (hsub.subset hq)⟩
      intro item hitem
      obtain ⟨q, hq, rfl⟩ := List.mem_map.mp hitem
      exact hvalid q hq
    · exact h.orderly f (List.mem_cons_of_mem _ hf)
  · -- the first of the modules is taken off the errands of every name
    intro ref x hx hopen
    have hold := errandsFor_stillMissing pending (o.starItem (specifier :: specifiers))
      (fun _ => rfl) hx hopen
    rw [agenda_cons, agenda_cons, ← List.append_assoc]
    refine congrArg (· ++ agenda rest ref) (hold.symm.trans ?_)
    by_cases href : ref ∈ (s.stillMissing pending).map (·.ref)
    · obtain ⟨q, hq, rfl⟩ := List.mem_map.mp href
      have hmem : ∀ item : Query → RefId × List Errand,
          item q ∈ (s.stillMissing pending).map item := fun item => List.mem_map.mpr ⟨q, hq, rfl⟩
      rw [errandsFor_of_mem (by rw [map_fst_starItem]; exact hnodup) (hmem (o.starItem _)),
        errandsFor_of_mem (by rw [map_fst_followItem]; exact hnodup) (hmem (o.followItem _))]
      change _ = _ ++ errandsFor ((s.stillMissing pending).map (o.starItem specifiers)) _
      rw [errandsFor_of_mem (by rw [map_fst_starItem]; exact hnodup) (hmem (o.starItem _))]
      rfl
    · change _ = _ ++ errandsFor ((s.stillMissing pending).map (o.starItem specifiers)) _
      rw [errandsFor_eq_nil (by rw [map_fst_starItem]; exact href),
        errandsFor_eq_nil (by rw [map_fst_followItem]; exact href),
        errandsFor_eq_nil (by rw [map_fst_starItem]; exact href)]
      rfl

/-- A frame is left when no modules are left, or no names are missing. -/
theorem leave {specifiers : List String} {pending : List Query}
    (h : Searching world files external ⟨s, ⟨o, .stars specifiers pending⟩ :: rest⟩)
    (hend : specifiers = [] ∨ s.stillMissing pending = []) :
    Searching world files external ⟨s, rest⟩ := by
  refine h.reframe Relation.ReflTransGen.refl rfl rfl
    (fun f hf => h.orderly f (List.mem_cons_of_mem _ hf)) ?_
  intro ref x hx hopen result hl
  have hnothing : errandsFor (⟨o, .stars specifiers pending⟩ : Frame).items ref = [] := by
    rcases hend with rfl | hend
    · refine List.flatMap_eq_nil_iff.mpr ?_
      intro item hitem
      obtain ⟨q, -, rfl⟩ := List.mem_map.mp (List.mem_filter.mp hitem).1
      rfl
    · refine (errandsFor_stillMissing pending (o.starItem specifiers) (fun _ => rfl) hx
        hopen).symm.trans ?_
      rw [hend]
      rfl
  rw [agenda_cons, hnothing]
  exact hl

/-- **A step of a search** keeps what holds in every state. -/
theorem step {r r' : Resolution} (h : Searching world files external r)
    (hstep : Resolution.step world r = .running r') :
    Searching world files external r' ∧ Harvest.Changes world r.harvest r'.harvest := by
  cases Resolution.step_eq_iff.mp hstep with
  | names hlook => exact h.names hlook
  | regroup => exact ⟨h.regroup, Relation.ReflTransGen.refl⟩
  | module henter => exact h.module henter
  | @stars s o starred rest =>
    have horderly := h.orderly _ List.mem_cons_self
    refine ⟨h.reframe Relation.ReflTransGen.refl rfl rfl ?_
      fun ref x _ _ result hl => hl, Relation.ReflTransGen.refl⟩
    intro f hf
    rcases List.mem_cons.mp hf with rfl | hf
    · exact ⟨horderly.file, horderly.nodup, horderly.valid, horderly.external⟩
    · exact h.orderly f (List.mem_cons_of_mem _ hf)
  | star _ henter => exact h.star henter
  | leave hend => exact ⟨h.leave hend, Relation.ReflTransGen.refl⟩

end Searching

end TypeGraft
