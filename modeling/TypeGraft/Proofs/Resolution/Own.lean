import TypeGraft.Proofs.Harvest.Release
import TypeGraft.Proofs.Resolution.Potential
import TypeGraft.Proofs.Resolution.Session

/-!
# Names that stand where they are declared

A reference is looked for in its own file first. If the file declares the name, the reference gets
that declaration (`TypeGraft.Harvest.targetOf_of_declares`), whatever the search hands on to those
that meet.

Before its first look, a reference waits for nothing, so that it has met no other. And its first
look is at its own file, since nothing sends a reference elsewhere that was not looked for yet
(`TypeGraft.Resolution.AtOrigin`).
-/

namespace TypeGraft

namespace Harvest

variable {world : World} {files : String → Option Outline} {external : Bool} {s s' : Harvest}
  {o : Outline} {q : Query} {found : Found} {key : Key} {ref : RefId}

/-! ### What a look does to the trails -/

theorem trail_settle (a : Synonyms) (ref' : RefId) (key : Key) (ref : RefId) :
    (a.settle ref' key).trail ref = a.trail ref := by
  rw [Synonyms.settle_eq]
  refine List.foldlRecOn (motive := fun b : Synonyms => b.trail ref = a.trail ref) _ _ rfl ?_
  exact fun _ hb _ _ => hb

theorem trail_fulfil (s : Harvest) (id : SynonymId) (key : Key) (ref : RefId) :
    (s.fulfil id key).synonyms.trail ref = s.synonyms.trail ref := by
  refine fulfil_rec (motive := fun t => t.synonyms.trail ref = s.synonyms.trail ref) ?_ ?_ rfl
  · intro t id ht
    rw [← ht, Synonyms.trail, (Synonyms.isOpen_identify t.synonyms t.isResolved id id key).2]
    rfl
  · intro t d ref' ht
    rw [synonyms_deliver]
    exact ht

/-- **A look adds to one trail** only, that of the reference that is looked for. -/
theorem Looks.trail (h : Looks s o q s' found) (ht : s.Tracked world files external)
    (href : ref ≠ q.ref) : s'.synonyms.trail ref = s.synonyms.trail ref := by
  have harrive : ∀ r, (s.arrive o q r).synonyms.trail ref = s.synonyms.trail ref := by
    intro r
    obtain ⟨b, id, harrival, -, -, -, -, hothers, -⟩ :=
      Synonyms.exists_wait ht.consistent q.ref (q.placeIn o) (shownLine o q.name r)
    have hb : (s.arrive o q r).synonyms = b := congrArg Prod.fst harrival
    rw [hb]
    exact hothers ref href
  cases h with
  | passed => rfl
  | elsewhere | starred | unknown => exact harrive _
  | @leftOut r d hr =>
    rw [← harrive r, ← (delivered_leaveOut (s.arrive o q r) d.key q.ref).synonyms]
    exact trail_settle _ _ _ _
  | again => exact (trail_fulfil _ _ _ _).trans (harrive _)
  | @first r d hr ha hl hg =>
    obtain ⟨parentRefs, hmeet⟩ :=
      exists_meet (s.arrive o q r) o d (s.arrival o q r).2 (requestOf r)
    rw [hmeet]
    refine (trail_fulfil ((s.arrive o q r).tookIn d (requestOf r)) _ _ ref).trans ?_
    rw [(search_tookIn (s.arrive o q r) d (requestOf r) hg).2]
    exact harrive r

/-- **A look where the name is declared** resolves the reference to the declaration. -/
theorem Looks.targetOf (h : Looks s o q s' found) (ht : s.Tracked world files external)
    (hs : s.synonyms.Settled (Declares files)) (hgrounded : s.Grounded)
    (hfile : s.files.get? o.path = some o) (hfiles : files o.path = some o) {x : Reference}
    {d : Declaration} (hfresh : s.Fresh o q x)
    (hanswer : o.answer q.name q.external = .declared d)
    (hfind : Denotes world files (x.origin external) d.key) :
    s'.targetOf q.ref = some d.key := by
  have hd : s.declaration? d.key = some d := by
    obtain ⟨own, hown⟩ := Outline.exists_get?_of_answer hanswer
    rw [(hgrounded.outline _ o hfile).2 own d hown, declaration?, hfile]
    exact hown
  have harrived := arrived_arrive ht hs hfresh
  have hchanges : Changes world s (s.arrive o q x) := changes_arrive s o q x
  have hreference : (s.arrive o q x).reference? q.ref =
      some { x with waypoints := x.waypoints ++ [q.placeIn o] } := by
    rw [reference?_arrive, if_pos rfl, hfresh.reference]
    rfl
  have hopen : (s.arrive o q x).targetOf q.ref = none :=
    (targetOf_of_reference? hreference).trans hfresh.unresolved
  have hden : (s.arrive o q x).RefDenotes world files external q.ref d.key :=
    ⟨_, hreference, hfind⟩
  have hdeclares : Declares files (q.placeIn o) d.key := ⟨o, d, hfiles, hanswer, rfl⟩
  -- what the look found is the one reference and the one declaration
  have hsame : ∀ {r : Reference} {d' : Declaration}, s.Fresh o q r →
      o.answer q.name q.external = .declared d' → r = x ∧ d' = d := fun hr ha =>
    ⟨Option.some.inj (hr.reference.symm.trans hfresh.reference),
      Answer.declared.inj (ha.symm.trans hanswer)⟩
  have hunlike : ∀ {answer : Answer}, o.answer q.name q.external = answer →
      (∀ d', answer ≠ .declared d') → s'.targetOf q.ref = some d.key := fun ha hne =>
    absurd (ha.symm.trans hanswer) (hne d)
  cases h with
  | passed h => exact absurd hfresh (h x)
  | elsewhere _ ha => exact hunlike ha fun _ => Answer.noConfusion
  | starred _ ha => exact hunlike ha fun _ => Answer.noConfusion
  | unknown _ ha => exact hunlike ha fun _ => Answer.noConfusion
  | leftOut hr ha hl =>
    obtain ⟨rfl, rfl⟩ := hsame hr ha
    have hleave : Change world (s.arrive o q _) ((s.arrive o q _).leaveOut q.ref _) :=
      Change.leaveOut hreference hd hl
    exact (tracked_giveUp harrived.tracked (Relation.ReflTransGen.single hleave)
      harrived.settledBut harrived.trail hden hopen).2.2.2.2
  | again hr ha hl hg =>
    obtain ⟨rfl, rfl⟩ := hsame hr ha
    exact (fulfilled_fulfil world (hgrounded.changes hchanges) (hchanges.isSome_graft? hg)
      harrived.tracked.consistent harrived.tracked.valid harrived.settledBut
      (harrived.leads _ hdeclares) harrived.trail harrived.waits hopen).2.2
  | first hr ha hl hg =>
    obtain ⟨rfl, rfl⟩ := hsame hr ha
    obtain ⟨parentRefs, hmeet⟩ :=
      exists_meet (s.arrive o q _) o _ (s.arrival o q _).2 (requestOf _)
    obtain ⟨-, -, -, -, hown, -⟩ := tracked_fulfil_tookIn rfl hgrounded harrived hdeclares hd hg
      hden hopen
    rw [hmeet]
    obtain ⟨r, hr, hk⟩ := Option.bind_eq_some_iff.mp hown
    refine (targetOf_of_reference? ?_).trans hk
    exact (List.getElem?_append_left (List.getElem?_eq_some_iff.mp hr).1).trans hr

/-- **A reference that waits for nothing** was handed nothing: what it is resolved to is what it
denotes. -/
theorem Tracked.denotes_of_trail (h : s.Tracked world files external) {x : Reference}
    (hx : s.reference? ref = some x) (htrail : s.synonyms.trail ref = [])
    (htarget : x.target = some key) : Denotes world files (x.origin external) key := by
  obtain ⟨finder, ⟨r, hr, hden⟩, -, hchain⟩ :=
    h.traced ref key ((targetOf_of_reference? hx).trans htarget)
  rcases hchain.cases_head with rfl | ⟨ref', ⟨⟨id, ⟨i, hi, -⟩, -⟩, -⟩, -⟩
  · obtain rfl := Option.some.inj (hx.symm.trans hr)
    exact hden
  · rw [htrail] at hi
    exact absurd hi List.not_mem_nil

theorem denotes_of_declares {place : Waypoint} (h : Declares files place key) :
    Denotes world files place key := by
  obtain ⟨o, d, ho, hanswer, rfl⟩ := h
  exact Lookup.found List.not_mem_nil ho hanswer

end Harvest

/-! ### The first look -/

open Harvest

variable {world : World} {files : String → Option Outline} {external : Bool} {s s' : Harvest}
  {o : Outline} {rest : List Frame}

/-- **A list of errands** in which each reference that was not looked for yet is to be looked for at
its own place. -/
def Harvest.SetsOut (external : Bool) (s : Harvest) (items : List (RefId × List Errand)) : Prop :=
  ∀ item ∈ items, ∀ x, s.reference? item.1 = some x → x.target = none → x.waypoints = [] →
    item.2 = [.visit (x.origin external)]

/-- **Every search begins at its own place.** A reference that stands where its name is declared
waits for nothing until it is looked for, and has the declaration then. -/
structure Resolution.AtOrigin (files : String → Option Outline) (external : Bool) (r : Resolution) :
    Prop where
  setsOut : ∀ frame ∈ r.frames, r.harvest.SetsOut external frame.items
  own : ∀ ref x key, r.harvest.reference? ref = some x → Declares files (x.origin external) key →
    r.harvest.synonyms.trail ref = [] ∧ (x.target = none → x.waypoints = []) ∨ x.target = some key

namespace Harvest.SetsOut

variable {items items' : List (RefId × List Errand)}

theorem mono (h : s.SetsOut external items) (hsub : items' ⊆ items) :
    s.SetsOut external items' :=
  fun item hitem => h item (hsub hitem)

theorem of_references (h : s.SetsOut external items) (hreferences : s'.references = s.references) :
    s'.SetsOut external items := by
  intro item hitem x hx
  rw [reference?, hreferences] at hx
  exact h item hitem x hx

/-- A reference that is sent elsewhere was looked for before. -/
theorem of_sent (h : s.SetsOut external items)
    (hsent : ∀ item' ∈ items', ∃ item ∈ items, item.1 = item'.1 ∧
      ∀ place, item.2 ≠ [.visit place]) :
    s.SetsOut external items' := by
  intro item' hitem' x hx hopen hway
  obtain ⟨item, hitem, href, hne⟩ := hsent item' hitem'
  rw [← href] at hx
  exact absurd (h item hitem x hx hopen hway) (hne _)

end Harvest.SetsOut

theorem map_follow_ne_visit (specifiers : List String) (name : String) (place : Waypoint) :
    specifiers.map (Errand.follow o.path · name) ≠ [.visit place] := by
  cases specifiers <;> simp

namespace Harvest.Looked

variable {q : Query} {found : Found} (h : Looked world files external s o q s' found)
include h

/-- The reference that is looked for has come to the place. -/
theorem waypoints_ne_nil {x : Reference} (hx : s'.reference? q.ref = some x)
    (hopen : x.target = none) : x.waypoints ≠ [] := by
  intro hway
  rcases h.own x hx hopen with ⟨-, hmem, -⟩ | ⟨r, -, rfl, -⟩
  · rw [hway] at hmem
    exact absurd hmem List.not_mem_nil
  · exact absurd hway (by simp)

/-- What a declaration mentions is new. -/
theorem reference?_of_mem_queries {query : Query} (hquery : query ∈ found.queries) :
    s.reference? query.ref = none :=
  List.getElem?_eq_none (h.bound query hquery).1

/-- The references that were there before are where they were, but for the one that is looked
for. -/
theorem waypoints_of_reference? {ref : RefId} {x₀ x : Reference} (hx₀ : s.reference? ref = some x₀)
    (href : ref ≠ q.ref) (hx : s'.reference? ref = some x) (hopen : x.target = none) : x = x₀ := by
  rcases h.others ref x href hx hopen with hx' | ⟨query, hquery, rfl, -⟩
  · exact Option.some.inj (hx'.symm.trans hx₀)
  · exact absurd ((h.reference?_of_mem_queries hquery).symm.trans hx₀) (by simp)

theorem setsOut_of_valid {items : List (RefId × List Errand)} (hsetsOut : s.SetsOut external items)
    (hvalid : ∀ item ∈ items, (s.reference? item.1).isSome) : s'.SetsOut external items := by
  intro item hitem x hx hopen hway
  by_cases href : item.1 = q.ref
  · exact absurd hway (h.waypoints_ne_nil (href ▸ hx) hopen)
  · obtain ⟨x₀, hx₀⟩ := Option.isSome_iff_exists.mp (hvalid item hitem)
    obtain rfl := h.waypoints_of_reference? hx₀ href hx hopen
    exact hsetsOut item hitem x hx₀ hopen hway

theorem setsOut_found : s'.SetsOut external (found.items o q) := by
  intro item hitem x hx hopen hway
  by_cases href : item.1 = q.ref
  · exact absurd hway (h.waypoints_ne_nil (href ▸ hx) hopen)
  · obtain ⟨query, hquery, heq⟩ := List.mem_map.mp ((Found.mem_map_fst_items
      (List.mem_map_of_mem hitem)).resolve_left href)
    rcases h.others item.1 x href hx hopen with hx | ⟨query', hquery', heq', -, horigin⟩
    · exact absurd ((h.reference?_of_mem_queries hquery).symm.trans (heq ▸ hx)) (by simp)
    · have hvisit : o.visitItem query' ∈ found.items o q := Found.visitItem_mem hquery'
      have hsame : item = o.visitItem query' :=
        List.inj_on_of_nodup_map (Found.nodup_map_fst_items h.nodup) hitem hvisit heq'.symm
      rw [hsame, horigin]
      rfl

end Harvest.Looked

namespace Resolution.AtOrigin

/-- **A step that looks for no name** leaves the references as they are. -/
theorem reframe {frames frames' : List Frame} (h : AtOrigin files external ⟨s, frames⟩)
    (hreferences : s'.references = s.references) (hsynonyms : s'.synonyms = s.synonyms)
    (hsetsOut : ∀ frame ∈ frames', s.SetsOut external frame.items) :
    AtOrigin files external ⟨s', frames'⟩ := by
  refine ⟨fun frame hframe => (hsetsOut frame hframe).of_references hreferences, ?_⟩
  intro ref x key hx hdeclares
  have hx : s.reference? ref = some x := by
    rw [reference?, ← hreferences]
    exact hx
  rw [show s'.synonyms.trail ref = s.synonyms.trail ref from congrArg (·.trail ref) hsynonyms]
  exact h.own ref x key hx hdeclares

/-- **Going into a module** is for references that were looked for before. -/
theorem enter {frame : Frame} {frames : List Frame} {specifier : String} {queries : List Query}
    {r' : Resolution} (h : AtOrigin files external ⟨s, frames⟩) (hgrounded : s.Grounded)
    (henter : Resolution.Enters world s frame rest specifier queries (.running r'))
    (hsetsOut : ∀ f ∈ frame :: rest, s.SetsOut external f.items)
    (hsent : ∃ items, s.SetsOut external items ∧ ∀ query ∈ queries, ∃ item ∈ items,
      item.1 = query.ref ∧ ∀ place, item.2 ≠ [.visit place]) : AtOrigin files external r' := by
  cases henter with
  | nowhere hmodule =>
    obtain ⟨-, hreferences, hsynonyms, -, -⟩ := changes_of_moduleOutline hgrounded hmodule
    exact h.reframe hreferences hsynonyms hsetsOut
  | @file s' outline hmodule =>
    obtain ⟨-, hreferences, hsynonyms, -, -⟩ := changes_of_moduleOutline hgrounded hmodule
    refine h.reframe hreferences hsynonyms fun f hf => ?_
    rcases List.mem_cons.mp hf with rfl | hf
    · obtain ⟨items, hitems, hsent⟩ := hsent
      refine hitems.of_sent fun item' hitem' => ?_
      have hvisits : item' ∈ queries.map outline.visitItem := by
        rw [Frame.items] at hitem'
        simpa using hitem'
      obtain ⟨query, hquery, rfl⟩ := List.mem_map.mp hvisits
      exact hsent query hquery
    · exact hsetsOut f hf

section Names

variable {q : Query} {queue : List Query} {missing : List (Query × Binding)}
  {starred : List Query} {found : Found} {ref : RefId} {x x₀ : Reference} {key : Key}
  (h : AtOrigin files external ⟨s, ⟨o, .names (q :: queue) missing starred⟩ :: rest⟩)
  (hsearching : Searching world files external
    ⟨s, ⟨o, .names (q :: queue) missing starred⟩ :: rest⟩)
  (hlook : s.look o q = (s', found))
include h hsearching hlook

/-- What is left to do sets out. -/
theorem setsOut_names : ∀ frame ∈ (⟨o, found.stage q queue missing starred⟩ : Frame) :: rest,
    s'.SetsOut external frame.items := by
  have hlooked := hsearching.looked hlook
  have hvalid := fun f hf => (hsearching.orderly f hf).valid
  intro f hf
  rcases List.mem_cons.mp hf with rfl | hf
  · refine SetsOut.mono ?_ (found.items_perm_stage o q queue missing starred).symm.subset
    intro item hitem
    rcases List.mem_append.mp hitem with hitem | hitem
    · exact hlooked.setsOut_found item hitem
    · refine hlooked.setsOut_of_valid ((h.setsOut _ List.mem_cons_self).mono fun item hitem =>
        List.mem_cons_of_mem _ hitem) (fun item hitem => ?_) item hitem
      exact hvalid _ List.mem_cons_self item (List.mem_cons_of_mem _ hitem)
  · exact hlooked.setsOut_of_valid (h.setsOut f (List.mem_cons_of_mem _ hf))
      (hvalid f (List.mem_cons_of_mem _ hf))

omit h in
/-- A reference that was added was not looked for yet. -/
theorem own_of_new (hnew : s.reference? ref = none) (hx : s'.reference? ref = some x) :
    s'.synonyms.trail ref = [] ∧ (x.target = none → x.waypoints = []) := by
  have href : ref ≠ q.ref := by
    rintro rfl
    have hsome := (hsearching.orderly _ List.mem_cons_self).valid _ List.mem_cons_self
    rw [show (o.visitItem q).1 = q.ref from rfl, hnew] at hsome
    exact absurd hsome (by simp)
  refine ⟨?_, fun hopen => ?_⟩
  · rw [(hsearching.looks_of_look hlook).trail hsearching.tracked href]
    refine List.eq_nil_iff_forall_not_mem.mpr fun i hi => ?_
    have hsome := hsearching.tracked.valid ref i hi
    rw [hnew] at hsome
    exact absurd hsome (by simp)
  · rcases (hsearching.looked hlook).others ref x href hx hopen with hx' | ⟨_, -, -, hway, -⟩
    · exact absurd (hnew.symm.trans hx') (by simp)
    · exact hway

/-- **The reference that is looked for** has the declaration, if the place is its own. -/
theorem target_of_own (hx₀ : s.reference? q.ref = some x₀) (hx : s'.reference? q.ref = some x)
    (hdeclares : Declares files (x₀.origin external) key) (htrail : s.synonyms.trail q.ref = [])
    (hway : x₀.target = none → x₀.waypoints = []) : x.target = some key := by
  cases htarget : x₀.target with
  | none =>
    have hitem := h.setsOut _ List.mem_cons_self (o.visitItem q) List.mem_cons_self x₀ hx₀ htarget
      (hway htarget)
    have hplace : q.placeIn o = x₀.origin external :=
      Errand.visit.inj (List.head_eq_of_cons_eq hitem)
    have hfile := (hsearching.orderly _ List.mem_cons_self).file
    have hfiles : files o.path = some o := hsearching.file_eq hfile
    have hdenotes : Denotes world files (x₀.origin external) key := denotes_of_declares hdeclares
    obtain ⟨o', d, ho', hanswer, rfl⟩ := hdeclares
    rw [← hplace] at ho' hanswer
    obtain rfl : o' = o := Option.some.inj (ho'.symm.trans hfiles)
    have hfresh : s.Fresh o' q x₀ := ⟨hx₀, htarget, by rw [hway htarget]; exact List.not_mem_nil⟩
    have hfound := (hsearching.looks_of_look hlook).targetOf hsearching.tracked hsearching.settled
      hsearching.grounded hfile hfiles hfresh hanswer hdenotes
    rwa [targetOf_of_reference? hx] at hfound
  | some key' =>
    have hden := hsearching.tracked.denotes_of_trail hx₀ htrail htarget
    obtain rfl : key' = key := Option.some.inj (hden.unique (denotes_of_declares hdeclares))
    obtain ⟨x', hx', hgrows⟩ := (hsearching.looked hlook).changes.reference hx₀
    obtain rfl : x' = x := Option.some.inj (hx'.symm.trans hx)
    exact hgrows.target key' htarget

/-- **Looking for a name.** -/
theorem names : AtOrigin files external ⟨s', ⟨o, found.stage q queue missing starred⟩ :: rest⟩ := by
  refine ⟨setsOut_names h hsearching hlook, fun ref x key hx hdeclares => ?_⟩
  have hlooked := hsearching.looked hlook
  cases hx₀ : s.reference? ref with
  | none => exact Or.inl (own_of_new hsearching hlook hx₀ hx)
  | some x₀ =>
    obtain ⟨x', hx', hgrows⟩ := hlooked.changes.reference hx₀
    obtain rfl : x' = x := Option.some.inj (hx'.symm.trans hx)
    rw [hgrows.origin] at hdeclares
    rcases h.own ref x₀ key hx₀ hdeclares with ⟨htrail, hway⟩ | htarget
    · by_cases href : ref = q.ref
      · subst href
        exact Or.inr (target_of_own h hsearching hlook hx₀ hx hdeclares htrail hway)
      · refine Or.inl ⟨?_, fun hopen => ?_⟩
        · rw [(hsearching.looks_of_look hlook).trail hsearching.tracked href]
          exact htrail
        · obtain rfl := hlooked.waypoints_of_reference? hx₀ href hx hopen
          exact hway hopen
    · exact Or.inr (hgrows.target key htarget)

end Names

/-- The names that were set aside are put in order. -/
theorem regroup {missing : List (Query × Binding)} {starred : List Query}
    (h : AtOrigin files external ⟨s, ⟨o, .names [] missing starred⟩ :: rest⟩) :
    AtOrigin files external ⟨s, ⟨o, .modules (s.groups missing) starred⟩ :: rest⟩ := by
  refine h.reframe rfl rfl fun f hf => ?_
  rcases List.mem_cons.mp hf with rfl | hf
  · refine (h.setsOut _ List.mem_cons_self).mono fun item hitem => ?_
    rcases List.mem_append.mp hitem with hitem | hitem
    · obtain ⟨m, hm, rfl⟩ :=
        List.mem_map.mp ((s.groups_perm o.followItem missing).subset hitem)
      have hitem : o.missingItem m ∈ missing.map o.missingItem :=
        List.mem_map_of_mem (List.mem_filter.mp hm).1
      exact List.mem_append_right [] (List.mem_append_left _ hitem)
    · exact List.mem_append_right (missing.map o.missingItem) hitem
  · exact h.setsOut f (List.mem_cons_of_mem _ hf)

/-- The names that come from one module are looked for there. -/
theorem module {specifier : String} {queries : List Query} {groups : List (String × List Query)}
    {starred : List Query} {r' : Resolution}
    (h : AtOrigin files external ⟨s,
      ⟨o, .modules ((specifier, queries) :: groups) starred⟩ :: rest⟩)
    (hgrounded : s.Grounded)
    (henter : Resolution.Enters world s ⟨o, .modules groups starred⟩ rest specifier queries
      (.running r')) : AtOrigin files external r' := by
  have hitems : (⟨o, .modules ((specifier, queries) :: groups) starred⟩ : Frame).items =
      queries.map (o.followItem specifier) ++ (⟨o, .modules groups starred⟩ : Frame).items := by
    simp only [Frame.items, List.flatMap_cons, List.append_assoc]
  have hall := h.setsOut _ List.mem_cons_self
  rw [hitems] at hall
  refine h.enter hgrounded henter (fun f hf => ?_) ⟨_, hall, fun query hquery =>
    ⟨o.followItem specifier query, List.mem_append_left _ (List.mem_map_of_mem hquery), rfl,
      fun _ => by simp [Outline.followItem]⟩⟩
  rcases List.mem_cons.mp hf with rfl | hf
  · exact hall.mono fun item hitem => List.mem_append_right _ hitem
  · exact h.setsOut f (List.mem_cons_of_mem _ hf)

/-- Names that are still missing are looked for in a module of which everything is exported. -/
theorem star {specifier : String} {specifiers : List String} {pending : List Query}
    {r' : Resolution}
    (h : AtOrigin files external ⟨s, ⟨o, .stars (specifier :: specifiers) pending⟩ :: rest⟩)
    (hgrounded : s.Grounded)
    (henter : Resolution.Enters world s ⟨o, .stars specifiers (s.stillMissing pending)⟩
      rest specifier (s.stillMissing pending) (.running r')) : AtOrigin files external r' := by
  have hall := h.setsOut _ List.mem_cons_self
  have hsent : ∀ query ∈ s.stillMissing pending, ∃ item ∈
      (⟨o, .stars (specifier :: specifiers) pending⟩ : Frame).items,
      item.1 = query.ref ∧ ∀ place, item.2 ≠ [.visit place] := fun query hquery =>
    ⟨o.starItem (specifier :: specifiers) query,
      List.mem_map_of_mem (List.mem_filter.mp hquery).1, rfl, map_follow_ne_visit _ _⟩
  refine h.enter hgrounded henter (fun f hf => ?_) ⟨_, hall, hsent⟩
  rcases List.mem_cons.mp hf with rfl | hf
  · refine hall.of_sent fun item hitem => ?_
    obtain ⟨query, hquery, rfl⟩ := List.mem_map.mp hitem
    exact hsent query hquery
  · exact h.setsOut f (List.mem_cons_of_mem _ hf)

theorem leave {frame : Frame} (h : AtOrigin files external ⟨s, frame :: rest⟩) :
    AtOrigin files external ⟨s, rest⟩ :=
  h.reframe rfl rfl fun f hf => h.setsOut f (List.mem_cons_of_mem _ hf)

/-- **A step of a search** keeps it. -/
theorem step {r r' : Resolution} (h : r.AtOrigin files external)
    (hsearching : Searching world files external r)
    (hstep : Resolution.step world r = .running r') : r'.AtOrigin files external := by
  cases Resolution.step_eq_iff.mp hstep with
  | names hlook => exact names h hsearching hlook
  | regroup => exact h.regroup
  | module henter => exact h.module hsearching.grounded henter
  | @stars s o starred =>
    refine h.reframe rfl rfl fun f hf => ?_
    rcases List.mem_cons.mp hf with rfl | hf
    · exact h.setsOut ⟨o, .modules [] starred⟩ List.mem_cons_self
    · exact h.setsOut f (List.mem_cons_of_mem _ hf)
  | star _ henter => exact h.star hsearching.grounded henter
  | leave => exact h.leave

end Resolution.AtOrigin

namespace Harvest

variable {requests : List RootRequest} {key : Key} {ref : RefId}

theorem Unsearched.atOrigin (h : s.Unsearched o) (requests : List RootRequest) (external : Bool) :
    (s.begun o requests external).AtOrigin (s.sources world) external := by
  have hsynonyms : s.synonyms = .empty := congrArg synonyms h.eq
  rw [begun_eq h]
  constructor
  · intro frame hframe item hitem x hx _ _
    rw [List.mem_singleton.mp hframe, Frame.items] at hitem
    simp only [List.map_nil, List.append_nil] at hitem
    obtain ⟨query, hquery, rfl⟩ := List.mem_map.mp hitem
    obtain ⟨⟨request, i⟩, hmem, rfl⟩ := List.mem_map.mp hquery
    obtain ⟨n, hn⟩ := List.mem_iff_getElem?.mp hmem
    obtain ⟨hrequest, hi⟩ := List.getElem?_zip_eq_some.mp hn
    obtain rfl : n = i := by
      have hlt : n < requests.length := (List.getElem?_eq_some_iff.mp hrequest).1
      exact Option.some.inj ((List.getElem?_range hlt).symm.trans hi)
    have hx : (rootReferences o requests)[n]? = some x := hx
    rw [rootReferences, List.getElem?_map, hrequest] at hx
    obtain rfl := Option.some.inj hx
    simp [Outline.visitItem, Query.placeIn, Reference.origin, Reference.ofRequest]
  · intro ref x key hx _
    have htrail : s.synonyms.trail ref = [] := by
      rw [hsynonyms]
      rfl
    exact Or.inl ⟨htrail, fun _ => (of_mem_rootReferences (List.mem_of_getElem? hx)).2.1⟩

theorem atOrigin_of_steps (hopened : Opened world s o) {r : Resolution}
    (hsteps : Resolution.Steps world (s.begun o requests external) r) :
    r.AtOrigin (s.sources world) external := by
  induction hsteps with
  | refl => exact hopened.unsearched.atOrigin requests external
  | tail hsteps hstep ih =>
    exact ih.step ((hopened.unsearched.searching world requests external).steps hsteps).1 hstep

/-- **A reference whose own file declares its name** gets that declaration. -/
theorem targetOf_of_declares (hopened : Opened world s o)
    (h : s.search world o requests external = (s', .ok ())) {x : Reference}
    (hx : s'.reference? ref = some x)
    (hdeclares : Declares (s.sources world) (x.origin external) key) :
    s'.targetOf ref = some key := by
  obtain ⟨⟨s₁, frames⟩, hsteps, hframes, rfl⟩ := exists_steps_of_search h
  obtain rfl : frames = [] := hframes
  obtain ⟨hsearching, -⟩ := searching_of_search hopened h
  have hden : Denotes world (s.sources world) (x.origin external) key :=
    denotes_of_declares hdeclares
  rw [targetOf_of_reference? hx]
  rcases (atOrigin_of_steps hopened hsteps).own ref x key hx hdeclares with ⟨htrail, -⟩ | htarget
  · cases htarget : x.target with
    | none => exact absurd ((hsearching.lookup_none hx htarget).unique hden) (by simp)
    | some key' =>
      exact (hsearching.tracked.denotes_of_trail hx htrail htarget).unique hden
  · exact htarget

end Harvest

end TypeGraft
