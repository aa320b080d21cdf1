import TypeGraft.Proofs.Harvest.Linked
import TypeGraft.Proofs.Resolution.Agenda

/-!
# Searches from the first step to the last

Where a search begins, only one file was read and nothing was found
(`TypeGraft.Harvest.Unsearched`). All that holds in every state of a search (`TypeGraft.Searching`)
holds there, so it holds in the state that the search ends with, when there are no errands left
(`TypeGraft.Harvest.searching_of_search`).
-/

namespace TypeGraft

namespace Harvest

variable {world : World} {s s' : Harvest} {o : Outline} {requests : List RootRequest}
  {external : Bool}

/-- **Nothing was searched yet**: one file was read. The names that are taken are those of the
entry script. -/
structure Unsearched (s : Harvest) (o : Outline) : Prop where
  wellFormed : o.WellFormed
  eq : s = { start s.strict s.entry with
    files := [(o.path, o)], takenNames := s.takenNames, reads := s.reads, events := s.events }
  entry : s.entry = none ∧ s.takenNames = [] ∨ s.entry = some o.path ∧
    s.takenNames = (o.declarations.filter fun d => !d.2.isEnumeration).map (·.1)

theorem Opened.unsearched (h : Opened world s o) : s.Unsearched o := by
  cases h with
  | @script strict path source tree _ events h =>
    obtain ⟨rfl, hw⟩ := Outline.wellFormed_ofTree h
    have htaken : ∀ own : List String, own.filter (fun name => name ∉ ([] : List String)) = own :=
      fun own => List.filter_eq_self.mpr fun _ _ => by simp
    exact ⟨hw, rfl, Or.inr ⟨rfl, htaken _⟩⟩
  | @file strict path s o h =>
    cases outlined h with
    | known hfile => exact absurd hfile (by simp [start])
    | read _ _ hscan =>
      obtain ⟨rfl, hw⟩ := wellFormed_of_outline hscan
      exact ⟨hw, rfl, Or.inl ⟨rfl, rfl⟩⟩

/-- The outline that a search is opened with is true to its script. -/
theorem Opened.sound (h : Opened world s o) : o.Sound := by
  cases h with
  | script h => exact (Outline.sound_ofTree h).2
  | @file strict path s o h =>
    cases outlined h with
    | known hfile => exact absurd hfile (by simp [start])
    | read _ _ hscan =>
      obtain ⟨tree, -, hscan⟩ := exists_tree_of_outline hscan
      exact (Outline.sound_ofTree hscan).2

/-! ### The first state -/

/-- The references of some requests. -/
def rootReferences (o : Outline) (requests : List RootRequest) : List Reference :=
  requests.map fun r => Reference.ofRequest o.path r.name r.span r.line

/-- The names that some requests ask for. -/
def rootQueries (requests : List RootRequest) (external : Bool) : List Query :=
  (requests.zip (List.range requests.length)).map fun r => ⟨r.2, r.1.name, external⟩

theorem begun_eq (h : s.Unsearched o) (requests : List RootRequest) (external : Bool) :
    s.begun o requests external =
      ⟨{ s with
          references := rootReferences o requests
          roots := List.range requests.length },
        [⟨o, .names (rootQueries requests external) [] []⟩]⟩ := by
  have hreferences : s.references = [] := congrArg references h.eq
  have hroots : s.roots = [] := congrArg roots h.eq
  have hrange : (List.range requests.length).map (0 + ·) = List.range requests.length := by simp
  simp only [begun, Resolution.begin_, addReferences, hreferences, hroots, List.nil_append,
    List.length_map, List.length_nil, hrange, List.map_map, List.zip_map_left]
  rfl

theorem map_ref_rootQueries (requests : List RootRequest) (external : Bool) :
    (rootQueries requests external).map (·.ref) = List.range requests.length := by
  have hcomp : ((fun query : Query => query.ref) ∘ fun r : RootRequest × RefId =>
      (⟨r.2, r.1.name, external⟩ : Query)) = Prod.snd := rfl
  rw [rootQueries, List.map_map, hcomp, List.map_snd_zip]
  exact Nat.le_of_eq List.length_range

/-- Each request is looked for under its own name. -/
theorem mem_rootQueries {ref : RefId} {r : Reference}
    (h : (rootReferences o requests)[ref]? = some r) :
    (⟨ref, r.name, external⟩ : Query) ∈ rootQueries requests external := by
  rw [rootReferences, List.getElem?_map] at h
  obtain ⟨request, hrequest, rfl⟩ := Option.map_eq_some_iff.mp h
  have hlt : ref < requests.length := (List.getElem?_eq_some_iff.mp hrequest).1
  exact List.mem_map.mpr ⟨(request, ref), List.mem_of_getElem?
    (List.getElem?_zip_eq_some.mpr ⟨hrequest, List.getElem?_range hlt⟩), rfl⟩

/-- Nothing is known yet of the references of requests. -/
theorem of_mem_rootReferences {r : Reference} (h : r ∈ rootReferences o requests) :
    r.target = none ∧ r.waypoints = [] ∧ r.owner = none ∧ r.file = o.path := by
  obtain ⟨request, -, rfl⟩ := List.mem_map.mp h
  exact ⟨rfl, rfl, rfl, rfl⟩

namespace Unsearched

variable (h : s.Unsearched o)
include h

theorem grounded : s.Grounded := by
  rw [h.eq]
  refine ⟨?_, fun key e he => absurd he (by simp [start, graft?])⟩
  intro path o' ho'
  rw [Table.get?_cons] at ho'
  split at ho'
  · next hpath =>
    rw [← Option.some.inj ho']
    exact ⟨hpath, h.wellFormed⟩
  · exact absurd ho' (by simp)

theorem file : s.files.get? o.path = some o := by
  rw [h.eq, Table.get?_cons, if_pos rfl]

/-- **What holds in every state of a search holds in the first.** -/
theorem searching (world : World) (requests : List RootRequest) (external : Bool) :
    Searching world (s.sources world) external (s.begun o requests external) := by
  have hsynonyms : s.synonyms = .empty := congrArg synonyms h.eq
  rw [begun_eq h]
  let begun : Harvest :=
    { s with references := rootReferences o requests, roots := List.range requests.length }
  have hitems : (⟨o, .names (rootQueries requests external) [] []⟩ : Frame).items =
      (rootQueries requests external).map o.visitItem := List.append_nil _
  have hnodup : ((⟨o, .names (rootQueries requests external) [] []⟩ : Frame).items.map
      Prod.fst).Nodup := by
    rw [hitems, map_fst_visitItem, map_ref_rootQueries]
    exact List.nodup_range
  have hreference : ∀ {ref r}, begun.reference? ref = some r →
      r.target = none ∧ r.waypoints = [] ∧ r.owner = none ∧ r.file = o.path := fun hr =>
    of_mem_rootReferences (List.mem_of_getElem? hr)
  have hunresolved : ∀ ref key, begun.targetOf ref ≠ some key := by
    intro ref key htarget
    obtain ⟨r, hr, hk⟩ := Option.bind_eq_some_iff.mp htarget
    rw [(hreference hr).1] at hk
    exact absurd hk (by simp)
  have htrail : ∀ ref, begun.synonyms.trail ref = [] := by
    intro ref
    change s.synonyms.trail ref = []
    rw [hsynonyms]
    rfl
  -- there are no synonyms yet, and each request has one errand
  refine ⟨⟨h.grounded.outline, h.grounded.graft⟩, fun path => sources_congr rfl rfl, ⟨?_, ?_, fun
    ref key ht => absurd ht (hunresolved ref key)⟩, ?_, ?_, ?_⟩
  · change s.synonyms.Consistent _
    rw [hsynonyms]
    exact Synonyms.consistent_empty
  · intro ref i hi
    have hi : i ∈ begun.synonyms.trail ref := hi
    rw [htrail ref] at hi
    exact absurd hi List.not_mem_nil
  · change s.synonyms.Settled _
    rw [hsynonyms]
    exact Synonyms.settled_empty
  · intro frame hframe
    rw [List.mem_singleton.mp hframe]
    refine ⟨h.file, hnodup, ?_, fun q hq => absurd hq List.not_mem_nil⟩
    intro item hitem
    have hmem : item.1 ∈ (rootQueries requests external).map (·.ref) := by
      rw [← map_fst_visitItem o, ← hitems]
      exact List.mem_map.mpr ⟨item, hitem, rfl⟩
    rw [map_ref_rootQueries, List.mem_range] at hmem
    change ((rootReferences o requests)[item.1]?).isSome
    rw [rootReferences, List.getElem?_map, List.getElem?_eq_getElem hmem]
    rfl
  · intro ref x hx _ result hl
    obtain ⟨-, hwaypoints, howner, hfile⟩ := hreference hx
    have hvisit : o.visitItem ⟨ref, x.name, external⟩ ∈
        (⟨o, .names (rootQueries requests external) [] []⟩ : Frame).items := by
      rw [hitems]
      exact List.mem_map.mpr ⟨_, mem_rootQueries hx, rfl⟩
    have hagenda : agenda [⟨o, .names (rootQueries requests external) [] []⟩] ref =
        [.visit ⟨o.path, x.name, external⟩] := by
      rw [agenda_cons, errandsFor_of_mem hnodup hvisit]
      rfl
    rw [hagenda, hwaypoints] at hl
    rw [Reference.origin, howner, hfile, Option.isNone_none, Bool.and_true]
    exact hl

theorem rooted (requests : List RootRequest) (external : Bool) :
    (s.begun o requests external).harvest.Rooted := by
  rw [begun_eq h]
  constructor
  · intro ref r hr _
    have hlt : ref < (rootReferences o requests).length := (List.getElem?_eq_some_iff.mp hr).1
    rw [rootReferences, List.length_map] at hlt
    exact List.mem_range.mpr hlt
  · intro ref href
    have hlt := List.mem_range.mp href
    refine ⟨Reference.ofRequest o.path requests[ref].name requests[ref].span requests[ref].line,
      ?_, rfl, rfl⟩
    change (rootReferences o requests)[ref]? = _
    rw [rootReferences, List.getElem?_map, List.getElem?_eq_getElem hlt]
    rfl

/-- Nothing is noted where a search begins. -/
theorem linked (requests : List RootRequest) (external : Bool) :
    (s.begun o requests external).harvest.Linked := by
  have hdependencies : s.dependencies = .empty := congrArg dependencies h.eq
  have hinherits : s.inherits = .empty := congrArg inherits h.eq
  have hgrafts : s.grafts = [] := congrArg grafts h.eq
  rw [begun_eq h]
  refine ⟨?_, ?_, ?_, ?_, ?_, ?_⟩
  · change s.dependencies.WellFormed
    rw [hdependencies]
    exact Digraph.wellFormed_empty
  · change s.inherits.WellFormed
    rw [hinherits]
    exact Digraph.wellFormed_empty
  · intro key
    change key ∈ s.dependencies.nodes ↔ (s.graft? key).isSome
    rw [hdependencies, graft?, hgrafts]
    simp [Digraph.empty]
  · intro key hkey
    change key ∈ s.inherits.nodes at hkey
    rw [hinherits] at hkey
    exact absurd hkey List.not_mem_nil
  · intro ref r owner hr howner
    rw [(of_mem_rootReferences (List.mem_of_getElem? hr)).2.2.1] at howner
    exact absurd howner (by simp)
  · intro ref r key hr hkey
    rw [(of_mem_rootReferences (List.mem_of_getElem? hr)).1] at hkey
    exact absurd hkey (by simp)

end Unsearched

end Harvest

/-! ### The last state -/

variable {world : World} {files : String → Option Outline} {external : Bool}

/-- **Any number of steps** keeps what holds in every state. -/
theorem Searching.steps {r r' : Resolution} (h : Searching world files external r)
    (hsteps : Resolution.Steps world r r') :
    Searching world files external r' ∧ Harvest.Changes world r.harvest r'.harvest := by
  induction hsteps with
  | refl => exact ⟨h, Relation.ReflTransGen.refl⟩
  | tail _ hstep ih =>
    obtain ⟨h₁, hc₁⟩ := ih
    obtain ⟨h₂, hc₂⟩ := h₁.step hstep
    exact ⟨h₂, hc₁.trans hc₂⟩

/-- **Where no errands are left**, a reference that is not resolved denotes nothing. -/
theorem Searching.lookup_none {s : Harvest} (h : Searching world files external ⟨s, []⟩)
    {ref : RefId} {r : Reference} (hr : s.reference? ref = some r) (hopen : r.target = none) :
    Lookup world files [] [.visit (r.origin external)] none :=
  h.pursued ref r hr hopen none Lookup.nothing

namespace Harvest

variable {s s' : Harvest} {o : Outline} {requests : List RootRequest}

/-- **What holds when a search is over.** -/
theorem searching_of_search (hopened : Opened world s o)
    (h : s.search world o requests external = (s', .ok ())) :
    Searching world (s.sources world) external ⟨s', []⟩ ∧
      Changes world (s.begun o requests external).harvest s' := by
  obtain ⟨⟨s₁, frames⟩, hsteps, rfl, rfl⟩ := exists_steps_of_search h
  exact (hopened.unsearched.searching world requests external).steps hsteps

/-- **The files of a search** are the one that it was opened with, and those that it has read. -/
theorem files_of_search (hopened : Opened world s o)
    (h : s.search world o requests external = (s', .ok ())) {path : String} {o' : Outline}
    (ho' : s'.files.get? path = some o') :
    path = o.path ∧ o' = o ∨ ∃ source events, world.read path = .ok source ∧
      Script.outline s.strict path source = .ok (o', events) := by
  have hsource : s.sources world path = some o' := by
    rw [← (searching_of_search hopened h).1.sources path]
    exact sources_of_get? ho'
  obtain ⟨_, houtlined⟩ := outlined_of_sources hsource
  cases houtlined with
  | known hfile =>
    have hfiles : s.files = [(o.path, o)] := congrArg files hopened.unsearched.eq
    rw [hfiles, Table.get?_cons] at hfile
    split at hfile
    · next hpath => exact Or.inl ⟨hpath.symm, (Option.some.inj hfile).symm⟩
    · exact absurd hfile (by simp)
  | read _ hread hscan => exact Or.inr ⟨_, _, hread, hscan⟩

/-- **The references of the requests** begin where they are asked for. -/
theorem origin_of_mem_roots (hopened : Opened world s o)
    (hc : Changes world (s.begun o requests external).harvest s') {ref : RefId} {r : Reference}
    (href : ref ∈ s'.roots) (hr : s'.reference? ref = some r) :
    r.owner = none ∧ r.origin external = ⟨o.path, r.name, external⟩ := by
  have hbegun := begun_eq hopened.unsearched requests external
  rw [hc.roots, hbegun, List.mem_range] at href
  obtain ⟨r₀, hr₀⟩ : ∃ r₀, (s.begun o requests external).harvest.reference? ref = some r₀ := by
    rw [hbegun]
    refine Option.isSome_iff_exists.mp ?_
    change ((rootReferences o requests)[ref]?).isSome
    rw [rootReferences, List.getElem?_map, List.getElem?_eq_getElem href]
    rfl
  obtain ⟨r', hr', hg⟩ := hc.reference hr₀
  obtain rfl := Option.some.inj (hr'.symm.trans hr)
  rw [hbegun] at hr₀
  obtain ⟨-, -, howner, hfile⟩ := of_mem_rootReferences (List.mem_of_getElem? hr₀)
  have hgrown : r'.owner = r₀.owner ∧ r'.file = r₀.file :=
    ⟨congrArg (fun r => r.owner) hg.bare, congrArg (fun r => r.file) hg.bare⟩
  have howner' : r'.owner = none := hgrown.1.trans howner
  refine ⟨howner', ?_⟩
  rw [Reference.origin, howner', hgrown.2, hfile, Option.isNone_none, Bool.and_true]

/-- A requested name that was not found is that of a reference that is not resolved. -/
theorem exists_of_mem_missingRequests {name : String} (h : name ∈ s.missingRequests) :
    ∃ ref ∈ s.roots, ∃ r, s.reference? ref = some r ∧ r.name = name ∧ r.target = none := by
  rw [missingRequests, mem_distinct, List.mem_filterMap] at h
  obtain ⟨ref, href, hname⟩ := h
  obtain ⟨hroot, hopen⟩ := List.mem_filter.mp href
  obtain ⟨r, hr, rfl⟩ := Option.map_eq_some_iff.mp hname
  refine ⟨ref, hroot, r, hr, rfl, ?_⟩
  rw [isResolved, targetOf_of_reference? hr] at hopen
  simpa using hopen

/-! ### Trying a search -/

/-- What a search may be opened with. -/
inductive Opening where
  /-- A script that asks for types. -/
  | script (path : String) (source : Bytes)
  /-- A file whose exports are asked for. -/
  | file (path : String)

/-- Where a search begins. -/
def Opening.start? (world : World) : Opening → Option (Harvest × Outline)
  | script path source =>
    match Script.tree .plain path source with
    | .error _ => none
    | .ok tree =>
      match Outline.ofTree false path source tree with
      | .error _ => none
      | .ok (o, events) => some (((start false (some path)).enter o).log events, o)
  | file path =>
    match (start false none).outlineOf world path with
    | (_, .error _) => none
    | (s, .ok o) => some (s, o)

theorem Opening.opened {opening : Opening} (h : opening.start? world = some (s, o)) :
    Opened world s o := by
  cases opening with
  | script path source =>
    rw [Opening.start?] at h
    split at h
    · exact absurd h (by simp)
    · split at h
      · exact absurd h (by simp)
      · next o' events hscan =>
        obtain ⟨rfl, rfl⟩ := Prod.mk.inj (Option.some.inj h)
        exact Opened.script hscan
  | file path =>
    rw [Opening.start?] at h
    split at h
    · exact absurd h (by simp)
    · next s' o' hread =>
      obtain ⟨rfl, rfl⟩ := Prod.mk.inj (Option.some.inj h)
      exact Opened.file hread

/-- Whether a search comes to an end, and to what is expected of it. -/
def comesTo (world : World) (opening : Opening) (names : List String) (external : Bool)
    (expected : Harvest → Outline → Harvest → Bool) : Bool :=
  match opening.start? world with
  | none => false
  | some (s, o) =>
    match s.search world o (exportRequests names) external with
    | (_, .error _) => false
    | (s', .ok ()) => expected s o s'

theorem exists_of_comesTo {opening : Opening} {names : List String}
    {expected : Harvest → Outline → Harvest → Bool}
    (h : comesTo world opening names external expected = true) :
    ∃ s o s', Opened world s o ∧ s.search world o (exportRequests names) external = (s', .ok ()) ∧
      expected s o s' = true := by
  unfold comesTo at h
  split at h
  · exact absurd h (by simp)
  · next s o hstart =>
    split at h
    · exact absurd h (by simp)
    · next s' hsearch => exact ⟨s, o, s', Opening.opened hstart, hsearch, h⟩

/-! ### Searching and splicing -/

/-- **A run that splices has searched before.** -/
theorem exists_search_of_searchAndSplice {clean : Cleaning} {orders : Orders} {splice : Splice}
    (h : s.searchAndSplice world o requests external clean = (s', .ok (orders, splice))) :
    ∃ found, s.search world o requests external = (found, .ok ()) ∧ found.orders.2 = orders ∧
      found.orders.1.splice orders clean = .ok (s', splice) := by
  unfold searchAndSplice at h
  split at h
  · exact absurd (Prod.mk.inj h).2 (by simp)
  · next found hsearch =>
    dsimp only at h
    split at h
    · exact absurd (Prod.mk.inj h).2 (by simp)
    · next s₂ splice' hsplice =>
      obtain ⟨rfl, hresult⟩ := Prod.mk.inj h
      obtain ⟨rfl, rfl⟩ := Prod.mk.inj (Except.ok.inj hresult)
      exact ⟨found, hsearch, rfl, hsplice⟩

/-- Whether splicing what was found comes to what is expected of it. -/
def splicesTo (clean : Cleaning) (expected : Orders → Harvest → Splice → Bool)
    (found : Harvest) : Bool :=
  match found.orders.1.splice found.orders.2 clean with
  | .error _ => false
  | .ok (s', splice) => expected found.orders.2 s' splice

theorem exists_of_splicesTo {opening : Opening} {names : List String} {clean : Cleaning}
    {expected : Orders → Harvest → Splice → Bool}
    (h : comesTo world opening names external (fun _ _ found => found.splicesTo clean expected) =
      true) :
    ∃ s o s' orders splice, Opened world s o ∧
      s.searchAndSplice world o (exportRequests names) external clean =
        (s', .ok (orders, splice)) ∧ expected orders s' splice = true := by
  obtain ⟨s, o, found, hopened, hsearch, hexpected⟩ := exists_of_comesTo h
  unfold splicesTo at hexpected
  split at hexpected
  · exact absurd hexpected (by simp)
  · next s' splice hsplice =>
    refine ⟨s, o, s', found.orders.2, splice, hopened, ?_, hexpected⟩
    unfold searchAndSplice
    rw [hsearch]
    dsimp only
    rw [hsplice]

end Harvest

end TypeGraft
