import TypeGraft.Proofs.Outline.Spacing
import TypeGraft.Proofs.Replacement
import TypeGraft.Proofs.Splice.Cleanup
import TypeGraft.Proofs.Syntax.Script

/-!
# Where references stand

A search reads scripts, whose trees are well-formed, so that every declaration that it takes in lies
in its file as it should (`TypeGraft.Harvest.Laid`). The references of a declaration are then in
reading order, one behind the other, and so are the texts that are written into its slots
(`TypeGraft.Harvest.Laid.inOrder_written`): whatever the order in which the references were
resolved, putting these texts in reading order gives them in the order of the references.
-/

namespace TypeGraft

/-- The slot of a reference. -/
def Reference.place (r : Reference) : Span := r.span.getD ⟨0, 0⟩

/-- All declarations of the file stand in their places. -/
def Outline.Laid (o : Outline) : Prop :=
  ∀ name d, o.declarations.get? name = some d → d.Laid o.source

/-- **The outline of a file that was parsed**: what it lists stands in the tree of its text. -/
def Outline.IsParsed (o : Outline) : Prop :=
  ∃ dialect strict tree events, Script.tree dialect o.path o.source = .ok tree ∧
    Outline.ofTree strict o.path o.source tree = .ok (o, events)

namespace Harvest

variable {world : World} {s s' : Harvest} {o : Outline} {requests : List RootRequest}
  {external : Bool} {key : Key} {e : Graft}

/-! ### Sessions -/

/-- **How types are asked for**: by a script, which names them where it applies macros, or by their
names among the exports of a file. The tree of the script is any that is well-formed; no more is
asked of it. -/
inductive Session (world : World) : Harvest → Outline → List RootRequest → Bool → Prop where
  | script {path : String} {source : Bytes} {tree : Syntax.Node} {macros : List String}
      {strict : Bool} {o : Outline} {events : List Event} (htree : tree.IsScript source)
      (h : Outline.ofTree strict path source tree = .ok (o, events)) :
      Session world (((start strict (some path)).enter o).log events) o
        ((Request.ofTree macros source tree).map fun r => ⟨r.name, some r.span, r.line⟩) false
  | file {strict : Bool} {path : String} {names : List String} {s : Harvest} {o : Outline}
      (h : (start strict none).outlineOf world path = (s, .ok o)) :
      Session world s o (exportRequests names) true

/-- **A session whose script was parsed.** -/
structure ParsedSession (world : World) (s : Harvest) (o : Outline) (requests : List RootRequest)
    (external : Bool) : Prop where
  session : Session world s o requests external
  parsed : o.IsParsed

theorem Session.opened (h : Session world s o requests external) : Opened world s o := by
  cases h with
  | script htree h => exact .script h
  | file h => exact .file h

theorem laid_of_outline {strict : Bool} {path : String} {source : Bytes} {events : List Event}
    (h : Script.outline strict path source = .ok (o, events)) : o.Laid := by
  obtain ⟨tree, htree, hscan⟩ := exists_tree_of_outline h
  obtain ⟨rfl, -⟩ := Outline.sound_ofTree hscan
  exact (Outline.spaced_ofTree (Script.isScript_of_tree htree) hscan).laid

/-- A file whose exports are asked for is no entry script. -/
theorem Session.external_eq (h : Session world s o requests external)
    (hentry : s.entry = some o.path) : external = false := by
  cases h with
  | script => rfl
  | @file strict path _ _ _ h =>
    obtain ⟨files, reads, events, heq⟩ := exists_outlineOf world (start strict none) path
    have hnone : ((start strict none).outlineOf world path).1.entry = none := by rw [heq]; rfl
    rw [h, hentry] at hnone
    exact absurd hnone (by simp)

theorem isParsed_of_tree {dialect : Syntax.Script.Dialect} {strict : Bool} {path : String}
    {source : Bytes} {tree : Syntax.Node} {events : List Event}
    (htree : Script.tree dialect path source = .ok tree)
    (h : Outline.ofTree strict path source tree = .ok (o, events)) : o.IsParsed := by
  obtain ⟨rfl, -⟩ := Outline.wellFormed_ofTree h
  obtain ⟨rfl, -⟩ := Outline.sound_ofTree h
  exact ⟨dialect, strict, tree, events, htree, h⟩

theorem Session.laid (h : Session world s o requests external) : o.Laid := by
  cases h with
  | script htree h =>
    obtain ⟨rfl, -⟩ := Outline.sound_ofTree h
    exact (Outline.spaced_ofTree htree h).laid
  | file h =>
    cases outlined h with
    | known hfile => exact absurd hfile (by simp [start])
    | read _ _ hscan => exact laid_of_outline hscan

/-- **All declarations of the files that were read** stand in their places. -/
def Laid (s : Harvest) : Prop := ∀ path o, s.files.get? path = some o → o.Laid

theorem laid_of_search (hsession : Session world s o requests external)
    (h : s.search world o requests external = (s', .ok ())) : s'.Laid := by
  intro path o' ho'
  rcases files_of_search hsession.opened h ho' with ⟨-, rfl⟩ | ⟨source, events, -, hscan⟩
  · exact hsession.laid
  · exact laid_of_outline hscan

/-! ### References of requests -/

/-- The references that stand in what `owner` is, or in the requests. -/
def standing (s : Harvest) (owner : Option Key) : List Reference :=
  s.mentions.filter fun r => r.owner = owner

/-- What a change adds to the mentions stands in declarations. -/
theorem Change.exists_mentions (hc : Change world s s') :
    ∃ more, s'.mentions = s.mentions ++ more ∧ ∀ r ∈ more, ∃ owner, r.owner = some owner := by
  have hget : ∀ (s : Harvest) (i : Nat), s.mentions[i]? = (s.reference? i).map (·.bare) :=
    fun s i => List.getElem?_map
  have hgrows : s.mentions <+: s'.mentions := by
    refine List.prefix_iff_getElem?.mpr fun i hi => ?_
    have hi' := (hget s i).symm.trans (List.getElem?_eq_getElem hi)
    obtain ⟨r, hr, hbare⟩ := Option.map_eq_some_iff.mp hi'
    obtain ⟨r', hr', hg⟩ := hc.reference hr
    rw [hget, hr', Option.map_some, hg.bare, hbare]
  obtain ⟨more, hmore⟩ := hgrows
  refine ⟨more, hmore.symm, fun m hm => ?_⟩
  obtain ⟨i, hi⟩ := List.mem_iff_getElem?.mp hm
  have hi' := hget s' (s.mentions.length + i)
  rw [← hmore, List.getElem?_append_right (Nat.le_add_right _ _), Nat.add_sub_cancel_left,
    hi] at hi'
  obtain ⟨r', hr', rfl⟩ := Option.map_eq_some_iff.mp hi'.symm
  rcases hc.of_reference? hr' with ⟨r, hr, -⟩ | ⟨-, -, owner, howner, -⟩
  · have hlt : s.mentions.length + i < s.references.length := (List.getElem?_eq_some_iff.mp hr).1
    rw [mentions, List.length_map] at hlt
    omega
  · exact ⟨owner, howner⟩

theorem Changes.standing_none (hc : Changes world s s') : s'.standing none = s.standing none := by
  induction hc with
  | refl => rfl
  | tail _ hstep ih =>
    obtain ⟨more, hmore, howned⟩ := hstep.exists_mentions
    have hnone : more.filter (fun r => r.owner = none) = [] := by
      refine List.filter_eq_nil_iff.mpr fun r hr => ?_
      obtain ⟨owner, howner⟩ := howned r hr
      rw [howner]
      simp
    rw [← ih, standing, standing, hmore, List.filter_append, hnone, List.append_nil]

/-! ### Slots in order -/

theorem span_of_filling {r : Reference} {x : Replacement} (h : s.filling r key = some x) :
    r.span = some x.span := by
  obtain ⟨span, hspan, h⟩ := Option.bind_eq_some_iff.mp h
  rw [hspan]
  cases hown : r.owner with
  | none =>
    rw [hown] at h
    dsimp only at h
    split at h
    · exact absurd h (by simp)
    · rw [← Option.some.inj h]
  | some owner =>
    rw [hown] at h
    dsimp only at h
    split at h
    · rw [← Option.some.inj h]
    · split at h
      · exact absurd h (by simp)
      · split at h
        · exact absurd h (by simp)
        · rw [← Option.some.inj h]

/-- What is written for references stands in their slots, in the same order. -/
theorem sublist_fillings (s : Harvest) (owner : Option Key) :
    ((s.fillings owner).map (·.span)).Sublist ((s.standing owner).filterMap (·.span)) := by
  rw [fillings, standing, mentions]
  induction s.references with
  | nil => exact List.Sublist.refl _
  | cons r references ih =>
    rw [List.map_cons, List.filterMap_cons, List.filter_cons]
    by_cases howner : r.owner = owner
    · have hbare : decide (r.bare.owner = owner) = true := decide_eq_true howner
      rw [if_pos hbare, List.filterMap_cons]
      cases hx : s.fillingFor owner r with
      | none =>
        dsimp only
        split
        · exact ih
        · exact ih.cons _
      | some x =>
        rw [fillingFor, if_pos howner] at hx
        obtain ⟨key, -, hx⟩ := Option.bind_eq_some_iff.mp hx
        rw [show r.bare.span = some x.span from span_of_filling hx]
        exact ih.cons_cons _
    · have hbare : ¬decide (r.bare.owner = owner) = true := by
        rw [decide_eq_true_eq]
        exact howner
      rw [if_neg hbare, show s.fillingFor owner r = none from if_neg howner]
      exact ih

/-! ### When a search is over -/

/-- **Where references stand** when a search is over, and what is written into their slots. -/
structure Sited (s : Harvest) (o : Outline) (requests : List RootRequest) : Prop where
  laid : s.Laid
  once : s.grafts.keys.Nodup
  declared : ∀ key e, s.graft? key = some e →
    s.declaration? key = some e.declaration ∧ e.declaration.key = key
  held : ∀ key, s.standing (some key) = s.mentionedBy key
  requested : s.standing none = rootReferences o requests
  /-- What a reference is resolved to was taken in, unless it is left out. -/
  taken : ∀ r ∈ s.references, ∀ key, r.target = some key → s.isLeftOut r key = false →
    ∃ e, s.graft? key = some e
  filledOnce : s.FilledOnce

theorem sited_of_search (hsession : Session world s o requests external)
    (h : s.search world o requests external = (s', .ok ())) : s'.Sited o requests := by
  obtain ⟨hsearching, hchanges⟩ := searching_of_search hsession.opened h
  obtain ⟨last, hlast, -, hend⟩ := exists_steps_of_search h
  have htidy : s'.Tidy := hend ▸ tidy_of_steps hsession.opened hlast
  have hgrounded : s'.Grounded := hsearching.grounded
  have honce : s'.names.keys.Nodup := hend ▸ (wellNamed_harvest hsession.opened hlast).once
  refine ⟨laid_of_search hsession h, ?_, fun key e he => ⟨hgrounded.graft key e he,
    hgrounded.key_eq (hgrounded.graft key e he)⟩, htidy.held, ?_,
    fun r hr key hkey hkept => ?_, filledOnce_of_search hsession.opened h⟩
  · rwa [names, Table.keys, List.map_map] at honce
  · rw [hchanges.standing_none, begun_eq hsession.opened.unsearched, standing, mentions]
    have hbare : ∀ r ∈ rootReferences o requests, r.bare = r := by
      intro r hr
      obtain ⟨request, -, rfl⟩ := List.mem_map.mp hr
      rfl
    rw [List.map_congr_left hbare, List.map_id']
    refine List.filter_eq_self.mpr fun r hr => ?_
    rw [(of_mem_rootReferences hr).2.2.1]
    rfl
  · obtain ⟨ref, hr⟩ := List.mem_iff_getElem?.mp hr
    have hlinked := (hsession.opened.unsearched.linked requests external).changes hchanges
    rcases hlinked.target ref r key hr hkey with ⟨d, hd, hleft⟩ | ⟨e, he, -⟩
    · rw [isLeftOut, hd] at hkept
      exact absurd (hleft.symm.trans hkept) (by simp)
    · exact ⟨e, he⟩

/-- What is done after the search leaves the references and the slots alone. -/
theorem Sited.of_keeps (h : s.Sited o requests) (hkeeps : s.Keeps s')
    (hreferences : s'.references = s.references)
    (hwritten : ∀ owner, s'.written owner = s.written owner) : s'.Sited o requests := by
  have hstanding : ∀ owner, s'.standing owner = s.standing owner := by
    intro owner
    rw [standing, standing, mentions, mentions, hreferences]
  have hkeys : ∀ s : Harvest, s.names.keys = s.grafts.keys := fun s => List.map_map
  refine ⟨fun path o' ho' => h.laid path o' (hkeeps.files ▸ ho'), ?_, fun key e he => ?_,
    fun key => ?_, (hstanding none).trans h.requested, fun r hr key hkey hkept => ?_,
    fun owner => ?_⟩
  · rw [← hkeys, hkeeps.names, hkeys]
    exact h.once
  · obtain ⟨e₀, he₀, hd, -⟩ := hkeeps.symm.graft he
    rw [hkeeps.declaration?, ← hd]
    exact h.declared key e₀ he₀
  · rw [hstanding, h.held, mentionedBy, mentionedBy, hkeeps.names, hkeeps.files]
  · rw [hreferences] at hr
    rw [hkeeps.isLeftOut] at hkept
    obtain ⟨e, he⟩ := h.taken r hr key hkey hkept
    obtain ⟨e', he', -⟩ := hkeeps.graft he
    exact ⟨e', he'⟩
  · have hfillings : s'.fillings owner = s.fillings owner := by
      rw [fillings, fillings, hreferences]
      refine congrArg (List.filterMap · _) (funext fun r => ?_)
      have hfilling : s'.filling r = s.filling r := funext fun key => hkeeps.filling rfl
      rw [fillingFor, fillingFor, hfilling]
    rw [hwritten, hfillings]
    exact h.filledOnce owner

namespace Sited

variable (h : s.Sited o requests)
include h

/-- The references that a declaration holds are its mentions, and it stands in its place. -/
theorem exists_outline (he : s.graft? key = some e) :
    ∃ o', s.files.get? key.file = some o' ∧ e.declaration.Laid o'.source ∧
      s.standing (some key) = mentioned o' e.declaration := by
  have hdeclared := (h.declared key e he).1
  obtain ⟨o', ho', hd⟩ := Option.bind_eq_some_iff.mp hdeclared
  refine ⟨o', ho', h.laid _ _ ho' _ _ hd, ?_⟩
  rw [h.held, mentionedBy, get?_names, he, ho']
  rfl

/-- The references of a declaration stand in it, one behind the other. -/
theorem row_standing (he : s.graft? key = some e) :
    Span.Row e.declaration.statement ((s.standing (some key)).filterMap (·.span)) ∧
      ∀ a ∈ (s.standing (some key)).filterMap (·.span), a.start < a.stop := by
  obtain ⟨o', -, hlaid, hstanding⟩ := h.exists_outline he
  have hspans : (s.standing (some key)).filterMap (·.span) =
      (e.declaration.freeMentions o'.source).map (·.span) := by
    rw [hstanding, mentioned, List.filterMap_map, ← List.filterMap_eq_map]
    rfl
  rw [hspans]
  refine ⟨hlaid.row_mentions.sublist (List.filter_sublist.map _), fun a ha => ?_⟩
  obtain ⟨m, hm, rfl⟩ := List.mem_map.mp ha
  exact (hlaid.names m (List.mem_filter.mp hm).1).2

end Sited

/-! ### Trying a session -/

/-- Whether the search for what a script asks for comes to an end, and to what is expected of it. -/
def sessionComesTo (world : World) (macros : List String) (path : String) (source : Bytes)
    (expected : Harvest → Bool) : Bool :=
  match Script.tree .plain path source with
  | .error _ => false
  | .ok tree =>
    match Outline.ofTree false path source tree with
    | .error _ => false
    | .ok (o, events) =>
      let requests := (Request.ofTree macros source tree).map fun r => ⟨r.name, some r.span, r.line⟩
      match (((start false (some path)).enter o).log events).search world o requests false with
      | (_, .error _) => false
      | (s', .ok ()) => expected s'

theorem exists_of_sessionComesTo {macros : List String} {path : String} {source : Bytes}
    {expected : Harvest → Bool}
    (h : sessionComesTo world macros path source expected = true) :
    ∃ s o requests s', ParsedSession world s o requests false ∧
      s.search world o requests false = (s', .ok ()) ∧ expected s' = true := by
  unfold sessionComesTo at h
  split at h
  · exact absurd h (by simp)
  · next tree htree =>
    split at h
    · exact absurd h (by simp)
    · next o events hscan =>
      dsimp only at h
      split at h
      · exact absurd h (by simp)
      · next s' hsearch =>
        exact ⟨_, o, _, s', ⟨.script (Script.isScript_of_tree htree) hscan,
          isParsed_of_tree htree hscan⟩, hsearch, h⟩

end Harvest

/-- **A script that is opened** is searched in a session. -/
theorem SetupScript.session {macros : List String} {strict : Bool} {path code : String}
    {script : SetupScript} {s : Harvest} {o : Outline} (world : World)
    (hcomponent : ofComponent? macros path code = .ok (some script))
    (hopen : script.open_ strict path = .ok (s, o)) :
    Harvest.Session world s o script.rootRequests false := by
  have hstands := ofComponent?_eq_iff.mp hcomponent
  obtain ⟨events, hscan, rfl⟩ := exists_scan_of_open hopen
  rw [rootRequests, hstands.requests]
  exact .script (Script.isScript_of_tree hstands.tree) hscan

/-- **A run that inlines types** is a session, and its script was parsed. -/
theorem Inlining.session {project : Project} {strict : Bool} {path code : String} {world : World}
    (run : Inlining world project strict path code) :
    Harvest.ParsedSession world run.opened run.outline run.script.rootRequests false := by
  obtain ⟨events, hscan, -⟩ := SetupScript.exists_scan_of_open run.opens
  exact ⟨SetupScript.session world run.component run.opens,
    Harvest.isParsed_of_tree (SetupScript.ofComponent?_eq_iff.mp run.component).tree hscan⟩

end TypeGraft
