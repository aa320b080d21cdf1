import TypeGraft.Files.World
import TypeGraft.Proofs.Resolution.Termination

/-!
# Nothing is done twice

A search in a bounded world comes to an end, and on the way each declaration is walked once at most,
each reference comes to each place once at most, and whenever a declaration is found, all that waits
for it is worked off (`TypeGraft.Harvest.ends_of_search`).

That nothing is done twice can be read off what the search has written down
(`TypeGraft.Harvest.Tidy`): the places that a reference has come to are listed without repetitions,
and the references that a declaration holds are what it mentions, once if it was taken in and not at
all otherwise.
-/

namespace TypeGraft

namespace Harvest

variable {world : World} {s s' : Harvest} {o : Outline} {q : Query} {found : Found}

/-! ### What is written down -/

/-- The references that a declaration holds. -/
def heldBy (s : Harvest) (key : Key) : List Reference :=
  s.mentions.filter fun r => r.owner = some key

/-- What a declaration that was taken in mentions. -/
def mentionedBy (s : Harvest) (key : Key) : List Reference :=
  match s.names.get? key, s.files.get? key.file with
  | some (d, _), some o => mentioned o d
  | _, _ => []

/-- **Nothing is written down twice.** -/
structure Tidy (s : Harvest) : Prop where
  visits : ∀ visited ∈ s.visits, visited.Nodup
  trails : s.synonyms.Unrepeated
  held : ∀ key, s.heldBy key = s.mentionedBy key

/-- A new place at the end of one list. -/
theorem nodup_of_mem_comeTo {visits : List (List Waypoint)} {ref : RefId} {place : Waypoint}
    {before visited : List Waypoint} (h : ∀ w ∈ visits, w.Nodup)
    (href : visits[ref]? = some before) (hnew : place ∉ before)
    (hvisited : visited ∈ comeTo visits ref place) : visited.Nodup := by
  obtain ⟨i, hi⟩ := List.mem_iff_getElem?.mp hvisited
  rw [comeTo, List.getElem?_modify] at hi
  split at hi
  · next he =>
    subst he
    rw [href] at hi
    rw [← Option.some.inj hi]
    refine List.nodup_append.mpr
      ⟨h before (List.mem_of_getElem? href), List.nodup_singleton place, ?_⟩
    rintro w hw _ hlast rfl
    exact hnew (List.mem_singleton.mp hlast ▸ hw)
  · cases hget : visits[i]? with
    | none =>
      rw [hget] at hi
      exact absurd hi (by simp)
    | some w =>
      rw [hget] at hi
      rw [← Option.some.inj hi]
      exact h w (List.mem_of_getElem? hget)

/-- **A look into a file** keeps what is written down tidy. -/
theorem Tidy.records (h : s.Tidy) (hw : o.WellFormed) (hfile : s.files.get? o.path = some o)
    (htrails : s'.synonyms.Unrepeated) (hr : Records s o q s' found) : s'.Tidy := by
  have hvisit : ∀ {r}, s.Fresh o q r → ∀ visited ∈ comeTo s.visits q.ref (q.placeIn o),
      visited.Nodup := by
    intro r hr visited hvisited
    have hbefore : s.visits[q.ref]? = some r.waypoints := by
      rw [Harvest.visits, List.getElem?_map,
        show s.references[q.ref]? = some r from hr.reference]
      rfl
    exact nodup_of_mem_comeTo h.visits hbefore hr.unseen hvisited
  cases hr with
  | nothing => exact h
  | visit hr hkeeps hvisits hmentions =>
    refine ⟨fun visited hvisited => hvisit hr visited (by rwa [← hvisits]), htrails, fun key => ?_⟩
    rw [heldBy, hmentions, mentionedBy, hkeeps.names, hkeeps.files]
    exact h.held key
  | @walk _ r d _ newName hr ha hg hfiles hnames hvisits hmentions =>
    refine ⟨?_, htrails, fun key => ?_⟩
    · intro visited hvisited
      rw [hvisits] at hvisited
      rcases List.mem_append.mp hvisited with hvisited | hvisited
      · exact hvisit hr visited hvisited
      · obtain ⟨-, -, rfl⟩ := List.mem_map.mp hvisited
        exact List.nodup_nil
    · have hnone : s.names.get? d.key = none := by rw [get?_names, hg]; rfl
      have hput : s'.names = s.names.put d.key (d, newName) :=
        hnames.trans (Table.put_eq_append _ hnone).symm
      have hheld : s'.heldBy key =
          s.heldBy key ++ (mentioned o d).filter fun r => r.owner = some key := by
        rw [heldBy, hmentions, List.filter_append, heldBy]
      rw [hheld, h.held key, mentionedBy, mentionedBy, hput, hfiles, Table.get?_put]
      by_cases hkey : d.key = key
      · -- the declaration held nothing before, and all that is mentioned is its own
        subst hkey
        obtain ⟨own, hown⟩ := Outline.exists_get?_of_answer ha
        rw [if_pos rfl, hnone, hw own d hown]
        dsimp only
        rw [hfile, ← hw own d hown, List.nil_append]
        exact List.filter_eq_self.mpr fun m hm => decide_eq_true (of_mem_mentioned hm).2.2.1
      · rw [if_neg hkey]
        refine (congrArg (_ ++ ·) (List.filter_eq_nil_iff.mpr fun m hm => ?_)).trans
          (List.append_nil _)
        rw [(of_mem_mentioned hm).2.2.1]
        simpa using hkey

/-- **A step** keeps what is written down tidy. -/
theorem Tidy.move {r r' : Resolution} (h : r.harvest.Tidy) (hgrounded : r.harvest.Grounded)
    (hmoves : Resolution.Moves world r r') : r'.harvest.Tidy := by
  cases hmoves with
  | look hfile hlooks =>
    exact h.records (hgrounded.outline _ _ hfile).2 hfile (hlooks.unrepeated h.trails)
      hlooks.records
  | turn hnext hkept hfiles =>
    obtain ⟨files, reads, events, hkept⟩ := hkept
    have hnames : r'.harvest.names = r.harvest.names := by rw [hkept]; rfl
    refine ⟨?_, by rw [hkept]; exact h.trails, fun key => ?_⟩
    · rw [hkept]
      exact h.visits
    · rw [heldBy, show r'.harvest.mentions = r.harvest.mentions by rw [hkept]; rfl, mentionedBy,
        hnames]
      refine (h.held key).trans ?_
      rw [mentionedBy]
      rcases hfiles with hfiles | ⟨o, specifier, origin, hnew, -, hfiles⟩
      · rw [hfiles]
      · -- the file of a declaration that was taken in was read before
        cases hget : r.harvest.names.get? key with
        | none => rfl
        | some entry =>
          rw [get?_names] at hget
          obtain ⟨e, he, -⟩ := Option.map_eq_some_iff.mp hget
          obtain ⟨o', ho', -⟩ := Option.bind_eq_some_iff.mp (hgrounded.graft key e he)
          have hput := Table.put_eq_append o hnew
          have hkeep : r'.harvest.files.get? key.file = r.harvest.files.get? key.file := by
            rw [hfiles, ← hput]
            refine Table.get?_put_of_ne _ _ ?_
            rintro hsame
            rw [hsame, ho'] at hnew
            exact absurd hnew (by simp)
          rw [hkeep]

/-- Nothing is written down where a search begins. -/
theorem Unsearched.tidy (h : s.Unsearched o) (requests : List RootRequest) (external : Bool) :
    (s.begun o requests external).harvest.Tidy := by
  have hsynonyms : s.synonyms = .empty := congrArg synonyms h.eq
  have hgrafts : s.grafts = [] := congrArg grafts h.eq
  rw [begun_eq h]
  refine ⟨?_, ?_, fun key => ?_⟩
  · intro visited hvisited
    obtain ⟨r, hr, rfl⟩ := List.mem_map.mp hvisited
    rw [(of_mem_rootReferences hr).2.1]
    exact List.nodup_nil
  · intro ref
    change (s.synonyms.trail ref).Nodup
    rw [hsynonyms]
    exact List.nodup_nil
  · rw [mentionedBy, names]
    dsimp only
    rw [hgrafts]
    refine List.filter_eq_nil_iff.mpr fun r hr => ?_
    obtain ⟨r₀, hr₀, rfl⟩ := List.mem_map.mp hr
    have howner : r₀.bare.owner = none := (of_mem_rootReferences hr₀).2.2.1
    rw [howner]
    simp

/-- **In every state of a search** nothing is written down twice. -/
theorem tidy_of_steps {requests : List RootRequest} {external : Bool} {r : Resolution}
    (hopened : Opened world s o)
    (hsteps : Resolution.Steps world (s.begun o requests external) r) : r.harvest.Tidy := by
  have hsearching := hopened.unsearched.searching world requests external
  induction hsteps with
  | refl => exact hopened.unsearched.tidy requests external
  | tail hsteps hstep ih =>
    have hbefore := (hsearching.steps hsteps).1
    exact ih.move hbefore.grounded (hbefore.moves hstep)

end Harvest

/-! ### Walking a declaration -/

/-- **The next step of a search walks a declaration**: a name is looked for in a file that
declares it, and what is mentioned there is to be looked for next. -/
def Resolution.Walks (r : Resolution) (d : Declaration) : Prop :=
  ∃ o q queue missing starred rest mentioned,
    r.frames = ⟨o, .names (q :: queue) missing starred⟩ :: rest ∧
      o.answer q.name q.external = .declared d ∧
      (r.harvest.look o q).2 = .declared mentioned

namespace Searching

open Harvest Resolution

variable {world : World} {files : String → Option Outline} {external : Bool}
  {r r₁ r₂ : Resolution} {d d' : Declaration}

/-- A declaration that is walked was not taken in before, and is so after it. -/
theorem graft?_of_walks (h : Searching world files external r) (hwalks : r.Walks d) :
    r.harvest.graft? d.key = none ∧
      ∀ r', Resolution.step world r = .running r' → (r'.harvest.graft? d.key).isSome := by
  obtain ⟨o, q, queue, missing, starred, rest, mentioned, hframes, hanswer, hfound⟩ := hwalks
  obtain ⟨s, frames⟩ := r
  obtain rfl : frames = _ := hframes
  cases hlook : s.look o q with
  | mk s' found =>
    rw [hlook] at hfound
    obtain rfl : found = .declared mentioned := hfound
    cases (h.looks_of_look hlook).records with
    | visit _ _ _ _ _ hother => exact absurd rfl (hother mentioned)
    | @walk _ _ d₀ _ _ _ ha hg _ hnames =>
      obtain rfl : d₀ = d := Answer.declared.inj (ha.symm.trans hanswer)
      refine ⟨hg, fun r' hstep => ?_⟩
      obtain rfl := Progress.running.inj ((Stepped.names hlook).step_eq.symm.trans hstep)
      have hget : (s'.names.get? d₀.key).isSome := by
        rw [hnames, ← Table.put_eq_append _ (show s.names.get? d₀.key = none by
          rw [get?_names, hg]; rfl), Table.get?_put_self]
        rfl
      rwa [get?_names, Option.isSome_map] at hget

/-- **No declaration is walked twice.** -/
theorem key_ne_of_walks (h : Searching world files external r) (hwalks : r.Walks d)
    (hstep : Resolution.step world r = .running r₁) (hsteps : Steps world r₁ r₂)
    (hwalks' : r₂.Walks d') : d'.key ≠ d.key := by
  intro hkey
  have hsome := (h.graft?_of_walks hwalks).2 r₁ hstep
  obtain ⟨h₂, hc⟩ := (h.step hstep).1.steps hsteps
  have hnone := (h₂.graft?_of_walks hwalks').1
  have hsome₂ := hc.isSome_graft? hsome
  rw [hkey] at hnone
  rw [hnone] at hsome₂
  exact absurd hsome₂ (by simp)

end Searching

/-! ### The end of a search -/

namespace Harvest

variable {world : World} {s s' : Harvest} {o : Outline} {q : Query} {x : Reference}
  {d : Declaration}

/-- The harvest in which all that waits for a declaration is resolved, when a reference has found
it. -/
def finding (s : Harvest) (o : Outline) (q : Query) (x : Reference) (d : Declaration) : Harvest :=
  if (s.graft? d.key).isSome then s.arrive o q x else (s.arrive o q x).tookIn d (requestOf x)

/-- **When a declaration is found**, all that waits for it is worked off. -/
theorem Tidy.worksOff_finding (h : s.Tidy) (hgrounded : s.Grounded) (hw : o.WellFormed)
    (hfile : s.files.get? o.path = some o) (ha : o.answer q.name q.external = .declared d) :
    WorksOff d d.key [(s.arrival o q x).2] (s.finding o q x d)
      ((s.finding o q x d).fulfil (s.arrival o q x).2 d.key) := by
  have harrived : (s.arrive o q x).synonyms.Unrepeated := h.trails.wait _ _ _
  obtain ⟨own, hown⟩ := Outline.exists_get?_of_answer ha
  unfold finding
  split
  · next hsome =>
    obtain ⟨e, he⟩ := Option.isSome_iff_exists.mp hsome
    have hd : e.declaration = d := by
      have hsame := hgrounded.graft _ e he
      rw [hw own d hown, declaration?, hfile] at hsame
      exact Option.some.inj (hsame.symm.trans hown)
    have hworks := worksOff_fulfil (s := s.arrive o q x) he harrived (s.arrival o q x).2
    rwa [hd] at hworks
  · next hnone =>
    have hnone : (s.arrive o q x).graft? d.key = none := Option.not_isSome_iff_eq_none.mp hnone
    have htook := graft?_tookIn (requestOf x) hnone d.key
    rw [if_pos rfl] at htook
    exact worksOff_fulfil htook
      (by rw [(search_tookIn _ d (requestOf x) hnone).2]; exact harrived) _

/-- **The end of a search** in a bounded world: it takes steps to where it finishes or fails, and
that is what it comes to. -/
theorem exists_end_of_search (requests : List RootRequest) (external : Bool)
    (hbounded : world.Bounded) (hopened : Opened world s o) :
    ∃ r, Resolution.Steps world (s.begun o requests external) r ∧
      ((∃ s', Resolution.step world r = .finished s' ∧
          s.search world o requests external = (s', .ok ())) ∨
        ∃ s' failure, Resolution.step world r = .failed s' failure ∧
          s.search world o requests external = (s', .error failure)) := by
  have hunsearched := hopened.unsearched
  have hfiles : (s.begun o requests external).harvest.files = [(o.path, o)] := by
    rw [begun_eq hunsearched]
    exact congrArg Harvest.files hunsearched.eq
  have henclosed : (s.begun o requests external).harvest.Enclosed world o.path := by
    refine ⟨?_, ?_⟩ <;> rw [hfiles]
    · exact List.nodup_singleton _
    · exact fun path hpath => Or.inl (List.mem_singleton.mp hpath)
  obtain ⟨r, hsteps, hend⟩ := Resolution.exists_ends_run hbounded (world.places.length + 2)
    (hunsearched.searching world requests external) henclosed (Nat.le_add_right _ _)
  refine ⟨r, hsteps, ?_⟩
  rcases hend with ⟨s', hstep, hrun⟩ | ⟨s', failure, hstep, hrun⟩
  · exact Or.inl ⟨s', hstep, (search_eq world s o requests external).trans
      (congrArg Resolution.Result.outcome hrun)⟩
  · exact Or.inr ⟨s', failure, hstep, (search_eq world s o requests external).trans
      (congrArg Resolution.Result.outcome hrun)⟩

/-- **Every search ends.** In a bounded world a search takes steps to where it finishes or fails,
and that is what it comes to. On the way no declaration is walked twice; the references that a
declaration holds are what it mentions, each once; no reference comes to a place twice; and when a
declaration is found, all that waits for it is worked off. -/
theorem ends_of_search (requests : List RootRequest) (external : Bool) (hbounded : world.Bounded)
    (hopened : Opened world s o) :
    (∃ r, Resolution.Steps world (s.begun o requests external) r ∧
      ((∃ s', Resolution.step world r = .finished s' ∧
          s.search world o requests external = (s', .ok ())) ∨
        ∃ s' failure, Resolution.step world r = .failed s' failure ∧
          s.search world o requests external = (s', .error failure))) ∧
    ∀ r, Resolution.Steps world (s.begun o requests external) r →
      (∀ d r₁ r₂ d', r.Walks d → Resolution.step world r = .running r₁ →
        Resolution.Steps world r₁ r₂ → r₂.Walks d' → d'.key ≠ d.key) ∧
      (∀ key, r.harvest.heldBy key = r.harvest.mentionedBy key) ∧
      (∀ ref x, r.harvest.reference? ref = some x → x.waypoints.Nodup) ∧
      ∀ o' q queue missing starred rest x d,
        r.frames = ⟨o', .names (q :: queue) missing starred⟩ :: rest →
        o'.answer q.name q.external = .declared d →
          WorksOff d d.key [(r.harvest.arrival o' q x).2] (r.harvest.finding o' q x d)
            ((r.harvest.finding o' q x d).fulfil (r.harvest.arrival o' q x).2 d.key) := by
  have hsearching := hopened.unsearched.searching world requests external
  constructor
  · exact exists_end_of_search requests external hbounded hopened
  · intro r hsteps
    have h := (hsearching.steps hsteps).1
    have htidy := tidy_of_steps hopened hsteps
    refine ⟨fun d r₁ r₂ d' hwalks hstep hsteps hwalks' =>
      h.key_ne_of_walks hwalks hstep hsteps hwalks', htidy.held, ?_, ?_⟩
    · intro ref x hx
      exact htidy.visits _ (List.mem_map.mpr ⟨x, List.mem_of_getElem? hx, rfl⟩)
    · intro o' q queue missing starred rest x d hframes ha
      have hfile : r.harvest.files.get? o'.path = some o' :=
        (h.orderly ⟨o', .names (q :: queue) missing starred⟩
          (by rw [hframes]; exact List.mem_cons_self)).file
      exact htidy.worksOff_finding h.grounded (h.grounded.outline _ o' hfile).2 hfile ha

end Harvest

/-! ### Interfaces that extend each other -/

/-- Two modules that export everything of each other, each with an interface that extends the one of
the other. -/
def World.entwined : World :=
  World.ofTree ⟨["w"],
    [(["w", "a.ts"], Bytes.ofString
        ("export * from './b'\nimport \x7b U as V \x7d from './b'\n" ++
          "export interface T extends V \x7b x: V \x7d")),
      (["w", "b.ts"], Bytes.ofString
        ("export * from './a'\nimport \x7b T \x7d from './a'\n" ++
          "export interface U extends T \x7b y: W \x7d"))]⟩ []

set_option maxRecDepth 100000 in
/-- The search for both interfaces, and for a name that is declared nowhere, ends after each
interface was walked once. -/
theorem Harvest.ends_of_search_entwined :
    World.entwined.Bounded ∧ ∃ s o s', Opened World.entwined s o ∧
      s.search World.entwined o (exportRequests ["T", "U", "W"]) true = (s', .ok ()) ∧
      s'.visits.map List.length = [1, 2, 2, 2, 1, 2, 1] ∧
      ∃ r, Resolution.Steps World.entwined (s.begun o (exportRequests ["T", "U", "W"]) true) r ∧
        Resolution.step World.entwined r = .finished s' ∧
        ∀ key, r.harvest.heldBy key = r.harvest.mentionedBy key := by
  have hbounded : World.entwined.Bounded := World.bounded_ofTree (by decide) []
  obtain ⟨s, o, s', hopened, hsearch, hexpected⟩ := Harvest.exists_of_comesTo
    (show Harvest.comesTo World.entwined (.file "/w/a.ts") ["T", "U", "W"] true (fun _ _ s' =>
      s'.visits.map List.length = [1, 2, 2, 2, 1, 2, 1]) = true by decide +kernel)
  obtain ⟨⟨r, hsteps, hend⟩, hall⟩ :=
    Harvest.ends_of_search (exportRequests ["T", "U", "W"]) true hbounded hopened
  refine ⟨hbounded, s, o, s', hopened, hsearch, of_decide_eq_true hexpected, r, hsteps, ?_,
    (hall r hsteps).2.1⟩
  rcases hend with ⟨s₁, hstep, hsearch₁⟩ | ⟨s₁, failure, -, hsearch₁⟩
  · rw [hsearch] at hsearch₁
    rw [hstep, (Prod.mk.inj hsearch₁).1]
  · rw [hsearch] at hsearch₁
    exact absurd (Prod.mk.inj hsearch₁).2 (by simp)

end TypeGraft
