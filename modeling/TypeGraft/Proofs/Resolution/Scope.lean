import TypeGraft.Proofs.Harvest.InStep
import TypeGraft.Proofs.Resolution.Own
import TypeGraft.Proofs.Resolution.Walks

/-!
# The names of a file

When a search is over, a name of a file is known exactly if a reference that stands in the file, and
is looked for under the name in its own scope, is resolved
(`TypeGraft.Harvest.isSome_get?_knownNames_iff`).

A file is asked for a name of its own scope only for references that stand there. Whatever comes
from another file is looked for among the exports, so that it is told apart by its place
(`TypeGraft.Resolution.Scoped`). The other way round, each reference comes to its own place first.
-/

namespace TypeGraft

namespace Harvest

variable {world : World} {files : String → Option Outline} {external : Bool} {s s' : Harvest}
  {o : Outline} {q : Query} {found : Found} {ref : RefId} {place : Waypoint}

theorem cameTo_of_comeTo {r : Reference} (hr : s.Fresh o q r) :
    (∃ visited, (comeTo s.visits q.ref (q.placeIn o))[ref]? = some visited ∧ place ∈ visited) ↔
      s.CameTo ref place ∨ ref = q.ref ∧ place = q.placeIn o := by
  rw [comeTo, List.getElem?_modify, CameTo]
  by_cases href : q.ref = ref
  · subst href
    have hvisited : s.visits[q.ref]? = some r.waypoints := by
      rw [visits, List.getElem?_map, show s.references[q.ref]? = some r from hr.reference]
      rfl
    simp [hvisited]
  · simp [href, Ne.symm href]

/-- **What a reference has come to** after a look. -/
theorem Records.cameTo_iff (h : Records s o q s' found) : s'.CameTo ref place ↔
    s.CameTo ref place ∨ (∃ r, s.Fresh o q r) ∧ ref = q.ref ∧ place = q.placeIn o := by
  cases h with
  | nothing h => simp [h]
  | @visit _ _ r hr _ hvisits =>
    rw [and_iff_right ⟨r, hr⟩, ← cameTo_of_comeTo hr, CameTo, hvisits]
  | @walk _ r _ _ _ hr _ _ _ _ hvisits =>
    rw [and_iff_right ⟨r, hr⟩, ← cameTo_of_comeTo hr, CameTo, hvisits]
    refine exists_congr fun visited => and_congr_left fun hplace => ?_
    rw [List.getElem?_append]
    split
    · rfl
    · next hlt =>
      -- what is mentioned came nowhere yet
      rw [List.getElem?_eq_none (Nat.not_lt.mp hlt)]
      refine ⟨fun hvisited => ?_, fun h => absurd h (by simp)⟩
      obtain ⟨m, -, rfl⟩ := List.mem_map.mp (List.mem_of_getElem? hvisited)
      exact absurd hplace List.not_mem_nil

end Harvest

open Harvest

variable {world : World} {files : String → Option Outline} {external : Bool} {s s' : Harvest}
  {o : Outline} {rest : List Frame}

/-- **Names of its own scope** are looked for in a file only for references that stand there. -/
def Frame.Scoped (external : Bool) (s : Harvest) (frame : Frame) : Prop :=
  match frame.stage with
  | .names queue _ _ => ∀ q ∈ queue, q.external = false → ∀ x, s.reference? q.ref = some x →
      x.target = none → q.placeIn frame.outline = x.origin external
  | _ => True

/-- **What a search comes to in the scope of a file** is the own place of a reference, and that is
where each reference comes first. -/
structure Resolution.Scoped (external : Bool) (r : Resolution) : Prop where
  frames : ∀ frame ∈ r.frames, frame.Scoped external r.harvest
  inStep : r.harvest.InStep
  origin : ∀ ref x place, r.harvest.reference? ref = some x → r.harvest.CameTo ref place →
    r.harvest.CameTo ref (x.origin external) ∧ (place.external = false → place = x.origin external)

namespace Resolution.Scoped

/-- References and names are all that matters. -/
theorem reframe {frames frames' : List Frame} (h : Scoped external ⟨s, frames⟩)
    (hreferences : s'.references = s.references) (hsynonyms : s'.synonyms = s.synonyms)
    (hscoped : ∀ frame ∈ frames', frame.Scoped external s) : Scoped external ⟨s', frames'⟩ := by
  have hreference : ∀ ref, s'.reference? ref = s.reference? ref := fun ref => by
    rw [reference?, reference?, hreferences]
  have hcame : ∀ ref place, s'.CameTo ref place ↔ s.CameTo ref place := fun ref place =>
    cameTo_congr (by rw [visits, visits, hreferences])
  refine ⟨fun frame hframe => ?_, h.inStep.of_same hsynonyms hcame fun ref => ?_,
    fun ref x place hx hc => ?_⟩
  · have hframe := hscoped frame hframe
    obtain ⟨outline, stage⟩ := frame
    cases stage with
    | names queue =>
      intro q hq hexternal x hx
      exact hframe q hq hexternal x ((hreference q.ref).symm.trans hx)
    | modules | stars => trivial
  · rw [isResolved, isResolved, targetOf, targetOf, hreference]
  · rw [hcame]
    exact h.origin ref x place ((hreference ref).symm.trans hx) ((hcame ref place).mp hc)

/-- **Going into a module**, which is asked for what it exports. -/
theorem enter {frame : Frame} {frames : List Frame} {specifier : String} {queries : List Query}
    {r' : Resolution} (h : Scoped external ⟨s, frames⟩) (hgrounded : s.Grounded)
    (henter : Resolution.Enters world s frame rest specifier queries (.running r'))
    (hscoped : ∀ f ∈ frame :: rest, f.Scoped external s)
    (hexternal : ∀ q ∈ queries, q.external = true) : Scoped external r' := by
  cases henter with
  | nowhere hmodule =>
    obtain ⟨-, hreferences, hsynonyms, -, -⟩ := changes_of_moduleOutline hgrounded hmodule
    exact h.reframe hreferences hsynonyms hscoped
  | file hmodule =>
    obtain ⟨-, hreferences, hsynonyms, -, -⟩ := changes_of_moduleOutline hgrounded hmodule
    refine h.reframe hreferences hsynonyms fun f hf => ?_
    rcases List.mem_cons.mp hf with rfl | hf
    · intro q hq hinner
      rw [hexternal q hq] at hinner
      exact absurd hinner (by simp)
    · exact hscoped f hf

section Names

variable {q : Query} {queue : List Query} {missing : List (Query × Binding)}
  {starred : List Query} {found : Found}
  (h : Scoped external ⟨s, ⟨o, .names (q :: queue) missing starred⟩ :: rest⟩)
  (hsearching : Searching world files external
    ⟨s, ⟨o, .names (q :: queue) missing starred⟩ :: rest⟩)
  (hlook : s.look o q = (s', found))
include h hsearching hlook

omit h in
/-- References that were there before the look. -/
theorem scoped_of_valid {outline : Outline} {queries : List Query}
    (hqueries : ∀ query ∈ queries, (s.reference? query.ref).isSome)
    (hscoped : ∀ query ∈ queries, query.external = false → ∀ x, s.reference? query.ref = some x →
      x.target = none → query.placeIn outline = x.origin external) :
    ∀ query ∈ queries, query.external = false → ∀ x, s'.reference? query.ref = some x →
      x.target = none → query.placeIn outline = x.origin external := by
  intro query hquery hexternal x hx hopen
  obtain ⟨x₀, hx₀⟩ := Option.isSome_iff_exists.mp (hqueries query hquery)
  obtain ⟨x', hx', hgrows⟩ := (hsearching.looked hlook).changes.reference hx₀
  obtain rfl : x' = x := Option.some.inj (hx'.symm.trans hx)
  rw [hgrows.origin]
  refine hscoped query hquery hexternal x₀ hx₀ ?_
  cases htarget : x₀.target with
  | none => rfl
  | some key => exact absurd ((hgrows.target key htarget).symm.trans hopen) (by simp)

omit h hlook in
theorem valid_names : ∀ query ∈ q :: queue, (s.reference? query.ref).isSome := fun query hquery =>
  (hsearching.orderly _ List.mem_cons_self).valid (o.visitItem query)
    (List.mem_append_left _ (List.mem_map_of_mem (f := o.visitItem) hquery))

/-- **The file that was looked into** is looked into next for what is left, and for what the
declaration mentions that was found there. -/
theorem scoped_stage : Frame.Scoped external s' ⟨o, found.stage q queue missing starred⟩ := by
  have hlooked := hsearching.looked hlook
  have hvalid := valid_names hsearching
  have hqueue := scoped_of_valid hsearching hlook hvalid (h.frames _ List.mem_cons_self)
  cases found with
  | settled | elsewhere | starred =>
    exact fun query hquery => hqueue query (List.mem_cons_of_mem _ hquery)
  | declared mentioned =>
    intro query hquery hexternal x hx hopen
    rcases List.mem_append.mp hquery with hquery | hquery
    · exact hqueue query (List.mem_cons_of_mem _ hquery) hexternal x hx hopen
    · have hnew : s.reference? query.ref = none := hlooked.reference?_of_mem_queries hquery
      have hne : query.ref ≠ q.ref := fun hsame => by
        have hsome := hvalid q List.mem_cons_self
        rw [← hsame, hnew] at hsome
        exact absurd hsome (by simp)
      rcases hlooked.others query.ref x hne hx hopen with
        hold | ⟨query', hquery', hsame, -, hplace⟩
      · exact absurd (hnew.symm.trans hold) (by simp)
      · obtain rfl : query' = query := List.inj_on_of_nodup_map hlooked.nodup hquery' hquery hsame
        exact hplace.symm

/-- **Where the references came to** after the look. -/
theorem origin_of_look (horigin : Resolution.AtOrigin files external
      ⟨s, ⟨o, .names (q :: queue) missing starred⟩ :: rest⟩) (ref : RefId) (x : Reference)
    (place : Waypoint) (hx : s'.reference? ref = some x) (hc : s'.CameTo ref place) :
    s'.CameTo ref (x.origin external) ∧ (place.external = false → place = x.origin external) := by
  have hlooked := hsearching.looked hlook
  have hiff : ∀ p, s'.CameTo ref p ↔
      s.CameTo ref p ∨ (∃ r, s.Fresh o q r) ∧ ref = q.ref ∧ p = q.placeIn o :=
    fun _ => (hsearching.looks_of_look hlook).records.cameTo_iff
  rcases (hiff place).mp hc with hc | ⟨⟨x₀, hr⟩, rfl, rfl⟩
  · obtain ⟨x₀, hx₀⟩ := Option.isSome_iff_exists.mp hc.isSome_reference?
    obtain ⟨x', hx', hgrows⟩ := hlooked.changes.reference hx₀
    obtain rfl : x' = x := Option.some.inj (hx'.symm.trans hx)
    rw [hgrows.origin]
    exact (h.origin ref x₀ place hx₀ hc).imp_left fun hcame => (hiff _).mpr (Or.inl hcame)
  · obtain ⟨x', hx', hgrows⟩ := hlooked.changes.reference hr.reference
    obtain rfl : x' = x := Option.some.inj (hx'.symm.trans hx)
    rw [hgrows.origin]
    refine ⟨(hiff _).mpr ?_, fun hexternal => h.frames _ List.mem_cons_self q List.mem_cons_self
      hexternal x₀ hr.reference hr.unresolved⟩
    -- a reference that came nowhere yet is looked for at its own place
    cases hway : x₀.waypoints with
    | nil =>
      have hitem : o.visitItem q ∈ (⟨o, .names (q :: queue) missing starred⟩ : Frame).items :=
        List.mem_cons_self
      have hfirst := horigin.setsOut _ List.mem_cons_self _ hitem x₀ hr.reference hr.unresolved hway
      exact Or.inr ⟨⟨x₀, hr⟩, rfl, (Errand.visit.inj (List.head_eq_of_cons_eq hfirst)).symm⟩
    | cons place' _ =>
      have hcame : s.CameTo q.ref place' :=
        cameTo_iff.mpr ⟨x₀, hr.reference, hway ▸ List.mem_cons_self⟩
      exact Or.inl (h.origin q.ref x₀ place' hr.reference hcame).1

theorem names (horigin : Resolution.AtOrigin files external
      ⟨s, ⟨o, .names (q :: queue) missing starred⟩ :: rest⟩)
    (htrails : s.synonyms.Unrepeated) :
    Scoped external ⟨s', ⟨o, found.stage q queue missing starred⟩ :: rest⟩ := by
  refine ⟨fun f hf => ?_, h.inStep.looks (hsearching.looks_of_look hlook)
    (hsearching.looked hlook) htrails, h.origin_of_look hsearching hlook horigin⟩
  rcases List.mem_cons.mp hf with rfl | hf
  · exact h.scoped_stage hsearching hlook
  · obtain ⟨outline, stage⟩ := f
    cases stage with
    | names queries missing' starred' =>
      refine scoped_of_valid hsearching hlook (fun query hquery => ?_)
        (h.frames _ (List.mem_cons_of_mem _ hf))
      exact (hsearching.orderly _ (List.mem_cons_of_mem _ hf)).valid (outline.visitItem query)
        (List.mem_append_left _ (List.mem_map_of_mem (f := outline.visitItem) hquery))
    | modules | stars => trivial

end Names

/-- **A step of a search** keeps it. -/
theorem step {r r' : Resolution} (h : r.Scoped external)
    (hsearching : Searching world files external r)
    (horigin : r.AtOrigin files external) (htrails : r.harvest.synonyms.Unrepeated)
    (hstep : Resolution.step world r = .running r') : r'.Scoped external := by
  -- only a frame with names in its queue is asked for anything
  have hinner : ∀ {frame frame' : Frame} {rest : List Frame}, r.frames = frame :: rest →
      frame'.Scoped external r.harvest → ∀ f ∈ frame' :: rest, f.Scoped external r.harvest := by
    intro frame frame' rest hframes hframe' f hf
    rcases List.mem_cons.mp hf with rfl | hf
    · exact hframe'
    · exact h.frames f (hframes ▸ List.mem_cons_of_mem _ hf)
  cases Resolution.step_eq_iff.mp hstep with
  | names hlook => exact names h hsearching hlook horigin htrails
  | regroup | stars => exact h.reframe rfl rfl (hinner rfl trivial)
  | leave => exact h.reframe rfl rfl fun f hf => h.frames f (List.mem_cons_of_mem _ hf)
  | module henter =>
    refine h.enter hsearching.grounded henter (hinner rfl trivial) fun query hquery => ?_
    exact (hsearching.orderly _ List.mem_cons_self).external query
      (List.mem_append_left _ (List.mem_append_left _ hquery))
  | star _ henter =>
    refine h.enter hsearching.grounded henter (hinner rfl trivial) fun query hquery => ?_
    exact (hsearching.orderly _ List.mem_cons_self).external query (List.mem_filter.mp hquery).1

end Resolution.Scoped

namespace Harvest

variable {requests : List RootRequest} {name : String}

theorem Unsearched.scoped (h : s.Unsearched o) (world : World) (requests : List RootRequest)
    (external : Bool) :
    (s.begun o requests external).Scoped external := by
  have hsynonyms : s.synonyms = .empty := congrArg synonyms h.eq
  have hnew : ∀ ref x, (s.begun o requests external).harvest.reference? ref = some x →
      x.target = none ∧ x.waypoints = [] := by
    intro ref x hx
    rw [begun_eq h] at hx
    have hroot := of_mem_rootReferences (List.mem_of_getElem? hx)
    exact ⟨hroot.1, hroot.2.1⟩
  have hcame : ∀ ref place, ¬(s.begun o requests external).harvest.CameTo ref place := by
    intro ref place hc
    obtain ⟨x, hx, hplace⟩ := cameTo_iff.mp hc
    rw [(hnew ref x hx).2] at hplace
    exact absurd hplace List.not_mem_nil
  have hopen : ∀ ref, (s.begun o requests external).harvest.isResolved ref = true → False := by
    intro ref hf
    obtain ⟨key, hkey⟩ := Option.isSome_iff_exists.mp hf
    obtain ⟨x, hx, htarget⟩ := Option.bind_eq_some_iff.mp hkey
    rw [(hnew ref x hx).1] at htarget
    exact absurd htarget (by simp)
  have hempty : (s.begun o requests external).harvest.synonyms = .empty := by
    rw [begun_eq h]
    exact hsynonyms
  refine ⟨?_, ⟨?_, ?_, fun ref hf => (hopen ref hf).elim⟩, fun ref x place _ hc =>
    absurd hc (hcame ref place)⟩
  · have horigin : (s.begun o requests external).AtOrigin (s.sources world) external :=
      h.atOrigin requests external
    intro frame hframe
    have hsetsOut := horigin.setsOut frame hframe
    obtain ⟨outline, stage⟩ := frame
    cases stage with
    | names queue =>
      intro q hq hexternal x hx hopen
      have hitem := hsetsOut (outline.visitItem q)
        (List.mem_append_left _ (List.mem_map_of_mem (f := outline.visitItem) hq)) x hx hopen
        (hnew q.ref x hx).2
      exact Errand.visit.inj (List.head_eq_of_cons_eq hitem)
    | modules | stars => trivial
  · rw [hempty]
    exact Synonyms.founded_empty
  · rw [hempty]
    exact Synonyms.covered_empty hcame

theorem scoped_of_steps (hopened : Opened world s o) {r : Resolution}
    (hsteps : Resolution.Steps world (s.begun o requests external) r) : r.Scoped external := by
  have hsearching := hopened.unsearched.searching world requests external
  induction hsteps with
  | refl => exact hopened.unsearched.scoped world requests external
  | tail hsteps hstep ih =>
    exact ih.step (hsearching.steps hsteps).1 (atOrigin_of_steps hopened hsteps)
      (tidy_of_steps hopened hsteps).trails hstep

/-- **A name of a file is known** exactly if a reference is resolved that is looked for in the file
under that name. -/
theorem isSome_get?_knownNames_iff (hopened : Opened world s o)
    (h : s.search world o requests external = (s', .ok ())) (file : String) :
    ((s'.synonyms.knownNames file).get? name).isSome = true ↔
      ∃ ref x, s'.reference? ref = some x ∧ x.isResolved = true ∧
        x.origin external = ⟨file, name, false⟩ := by
  obtain ⟨r, hsteps, -, rfl⟩ := exists_steps_of_search h
  have hscoped := scoped_of_steps hopened hsteps
  rw [Synonyms.isSome_get?_knownNames_iff]
  constructor
  · rintro ⟨i, hstands, hplace⟩
    obtain ⟨ref, hresolved, hcame⟩ := hscoped.inStep.founded.found i _ hstands hplace
    obtain ⟨x, hx, -⟩ := cameTo_iff.mp hcame
    rw [isResolved, targetOf_of_reference? hx] at hresolved
    exact ⟨ref, x, hx, hresolved, ((hscoped.origin ref x _ hx hcame).2 rfl).symm⟩
  · rintro ⟨ref, x, hx, hresolved, horigin⟩
    have hown : r.harvest.isResolved ref = true := by
      rw [isResolved, targetOf_of_reference? hx]
      exact hresolved
    obtain ⟨place, hcame⟩ := hscoped.inStep.came ref hown
    have hcame := (hscoped.origin ref x place hx hcame).1
    rw [horigin] at hcame
    obtain ⟨i, hplace, hi⟩ := hscoped.inStep.covered.placed ref _ hcame
    refine ⟨i, hi.elim (fun htrail => ?_) id, hplace⟩
    exact (hscoped.inStep.covered.closed ref hown i htrail).resolve_right List.not_mem_nil

end Harvest

end TypeGraft
