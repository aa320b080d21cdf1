import TypeGraft.Proofs.Harvest.Literal
import TypeGraft.Proofs.Resolution.Termination

/-!
# Searches that stay at home

A script is *at home* (`TypeGraft.Outline.AtHome`) if all names that it needs are declared in it, or
nowhere that a search can get to: they are not imported, or come from modules that are not there.
Then the search for what it asks for never leaves the script, and ends without reading a file
(`TypeGraft.Harvest.exists_search_of_atHome`). All that it takes in is needed, and goes by its own
name.

What a script needs is a least set, and whether it is at home can be checked on any set of names
that is closed (`TypeGraft.Outline.atHome_of_settles`).
-/

namespace TypeGraft

namespace Outline

/-- **What a script needs**: the names that it asks for, and those that the declarations which it
needs mention. -/
inductive Needs (o : Outline) (requests : List RootRequest) : String → Prop where
  | request {r : RootRequest} (h : r ∈ requests) : Needs o requests r.name
  | mention {own : String} {d : Declaration} {m : Mention} (hown : Needs o requests own)
      (hd : o.declarations.get? own = some d) (hm : m ∈ d.freeMentions o.source) :
      Needs o requests m.name

/-- **A script that needs nothing from elsewhere**, and nothing that has to be rewritten. -/
structure AtHome (world : World) (o : Outline) (requests : List RootRequest) : Prop where
  /-- It needs no enumeration. -/
  plain : ∀ name d, o.Needs requests name → o.declarations.get? name = some d →
    d.isEnumeration = false
  /-- What it needs is imported only if it is not declared, and from modules that are not there. -/
  absent : ∀ name binding, o.Needs requests name → o.imports.get? name = some binding →
    o.declarations.get? name = none ∧ (world.locate binding.specifier o.path).1 = .ok none
  /-- The interfaces that it needs extend nothing with members. -/
  flat : ∀ name d base d', o.Needs requests name → o.declarations.get? name = some d →
    base ∈ d.bases → o.declarations.get? base.name = some d' → d'.hasMembers = false

/-- Whether a name that a script needs is one of a script that is at home, and what it mentions is
among some names. -/
def settles (world : World) (o : Outline) (names : List String) (name : String) : Bool :=
  match o.declarations.get? name with
  | some d =>
    !d.isEnumeration && (o.imports.get? name).isNone &&
      (d.bases.all fun base => (o.declarations.get? base.name).all fun d' => !d'.hasMembers) &&
      (d.freeMentions o.source).all fun m => names.contains m.name
  | none =>
    (o.imports.get? name).all fun binding =>
      match (world.locate binding.specifier o.path).1 with
      | .ok none => true
      | _ => false

/-- **Whether a script is at home can be checked** on any names that are closed. -/
theorem atHome_of_settles {world : World} {o : Outline} {requests : List RootRequest}
    {names : List String} (hrequests : requests.all (fun r => names.contains r.name) = true)
    (h : names.all (o.settles world names) = true) : o.AtHome world requests := by
  have hneeds : ∀ name, o.Needs requests name → name ∈ names := by
    intro name hname
    induction hname with
    | request hr => exact List.contains_iff_mem.mp (List.all_eq_true.mp hrequests _ hr)
    | mention _ hd hm ih =>
      have hsettles := List.all_eq_true.mp h _ ih
      rw [settles, hd] at hsettles
      exact List.contains_iff_mem.mp
        (List.all_eq_true.mp (Bool.and_eq_true_iff.mp hsettles).2 _ hm)
  have hall : ∀ name, o.Needs requests name → o.settles world names name = true :=
    fun name hname => List.all_eq_true.mp h name (hneeds name hname)
  refine ⟨fun name d hname hd => ?_, fun name binding hname hbinding => ?_,
    fun name d base d' hname hd hbase hd' => ?_⟩
  · have hsettles := hall name hname
    rw [settles, hd] at hsettles
    simp only [Bool.and_eq_true, Bool.not_eq_true'] at hsettles
    exact hsettles.1.1.1
  · have hsettles := hall name hname
    rw [settles] at hsettles
    split at hsettles
    · simp [hbinding] at hsettles
    · next hnone =>
      rw [hbinding, Option.all_some] at hsettles
      split at hsettles
      · next hmodule => exact ⟨hnone, hmodule⟩
      · exact absurd hsettles (by simp)
  · have hsettles := hall name hname
    rw [settles, hd] at hsettles
    simp only [Bool.and_eq_true] at hsettles
    have hflat := List.all_eq_true.mp hsettles.1.2 base hbase
    rw [hd', Option.all_some] at hflat
    simpa using hflat

end Outline

variable {world : World} {o : Outline} {requests : List RootRequest} {s s' : Harvest}

/-! ### What a search at home has found -/

/-- **What a search that stays at home has found** in the script. -/
structure Harvest.AtHome (o : Outline) (requests : List RootRequest) (s : Harvest) : Prop where
  entry : s.entry = some o.path
  file : s.files.get? o.path = some o
  literal : s.Literal
  needed : ∀ r ∈ s.mentions, o.Needs requests r.name
  taken : ∀ key, (s.graft? key).isSome → key.file = o.path ∧ o.Needs requests key.name

/-- The work that is left in the script: its names are those of their references, and no module is
left that is there. -/
def Stage.AtHome (world : World) (o : Outline) (s : Harvest) : Stage → Prop
  | .names queue missing starred =>
    (∀ q ∈ queue, q.external = false ∧ s.nameOf q.ref = some q.name) ∧
      (∀ m ∈ missing, (world.locate m.2.specifier o.path).1 = .ok none) ∧ starred = []
  | .modules groups starred =>
    (∀ g ∈ groups, (world.locate g.1 o.path).1 = .ok none) ∧ starred = []
  | .stars _ pending => pending = []

/-- **A search that stays at home.** -/
structure Resolution.AtHome (world : World) (o : Outline) (requests : List RootRequest)
    (r : Resolution) : Prop where
  harvest : r.harvest.AtHome o requests
  frames : r.frames = [] ∨ ∃ stage : Stage, r.frames = [⟨o, stage⟩] ∧ stage.AtHome world o r.harvest

/-! ### Looking for a name -/

/-- Inside a file, a name is that of a declaration, or of an import if there is no declaration. -/
theorem Outline.answer_inside {name : String} {answer : Answer} (h : o.answer name false = answer) :
    (∀ d, answer = .declared d → o.declarations.get? name = some d) ∧
      ∀ binding, answer = .elsewhere binding → o.imports.get? name = some binding := by
  rw [Outline.answer, if_neg (by simp)] at h
  subst h
  refine ⟨fun d => Outline.get?_of_ownAnswer, fun binding h => ?_⟩
  unfold Outline.ownAnswer at h
  split at h
  · exact absurd h (by simp)
  · split at h
    · next hbinding => rw [hbinding, Answer.elsewhere.inj h]
    · split at h <;> exact absurd h (by simp)

namespace Harvest.AtHome

variable {q : Query} {found : Found}

/-- What is asked for in a search at home is needed. -/
theorem needs (h : s.AtHome o requests) {ref : RefId} {name : String}
    (hname : s.nameOf ref = some name) : o.Needs requests name := by
  obtain ⟨r, hr, rfl⟩ := Option.map_eq_some_iff.mp hname
  exact h.needed r (List.mem_of_getElem? hr)

theorem isEntryFile_eq (h : s.AtHome o requests) {file : String} (hfile : file = o.path) :
    s.isEntryFile file = true := by
  rw [isEntryFile, h.entry, hfile]
  simp

/-- A declaration of the script is never left out. -/
theorem leavesOut_eq (h : s.AtHome o requests) {d : Declaration} (hd : d.key.file = o.path)
    (r : Reference) : s.leavesOut r d = false := by
  rw [leavesOut, h.isEntryFile_eq (show d.file = o.path from hd)]
  simp

/-- The names of references stay. -/
theorem nameOf_of_records (hrecords : Records s o q s' found) {ref : RefId} {name : String}
    (hname : s.nameOf ref = some name) : s'.nameOf ref = some name := by
  cases hrecords with
  | nothing => exact hname
  | visit _ _ _ hmentions => exact nameOf_of_append (hmentions.trans (List.append_nil _).symm) hname
  | walk _ _ _ _ _ _ hmentions => exact nameOf_of_append hmentions hname

/-- **Looking for a name in the script** finds what is needed. -/
theorem looks (h : s.AtHome o requests) (hw : o.WellFormed) (hlooks : Looks s o q s' found)
    (hchanges : Changes world s s') (hinside : q.external = false)
    (hname : s.nameOf q.ref = some q.name) : s'.AtHome o requests := by
  have hdeclared : ∀ d, o.answer q.name q.external = .declared d →
      o.declarations.get? q.name = some d ∧ d.key = ⟨o.path, q.name⟩ := by
    intro d ha
    rw [hinside] at ha
    have hd := (Outline.answer_inside ha).1 d rfl
    exact ⟨hd, hw q.name d hd⟩
  have hliteral : s'.Literal := by
    refine h.literal.looks hlooks (fun r hr => ?_) (fun d ha => ?_) fun r d ha => ?_
    · rw [nameOf_of_reference? hr] at hname
      exact Option.some.inj hname
    · rw [(hdeclared d ha).2]
    · exact h.leavesOut_eq (by rw [(hdeclared d ha).2]) r
  have hentry : s'.entry = some o.path := hchanges.entry.trans h.entry
  cases hlooks.records with
  | nothing => exact h
  | visit hr hkeeps hvisits hmentions =>
    refine ⟨hentry, hchanges.file h.file, hliteral, ?_, ?_⟩
    · rw [hmentions]
      exact h.needed
    · intro key hkey
      exact h.taken key ((hkeeps.isSome_graft? key).symm.trans hkey)
  | @walk _ r d queries newName hr ha hg hfiles hnames hvisits hmentions =>
    obtain ⟨hd, hkey⟩ := hdeclared d ha
    refine ⟨hentry, hchanges.file h.file, hliteral, ?_, ?_⟩
    · intro x hx
      rw [hmentions] at hx
      rcases List.mem_append.mp hx with hx | hx
      · exact h.needed x hx
      · obtain ⟨m, hm, rfl⟩ := List.mem_map.mp hx
        exact Outline.Needs.mention (h.needs hname) hd hm
    · intro key hsome
      have hput : s'.names = s.names.put d.key (d, newName) :=
        hnames.trans (Table.put_eq_append _ (by rw [get?_names, hg]; rfl)).symm
      rw [← Option.isSome_map, ← get?_names, hput, Table.get?_put] at hsome
      split at hsome
      · next heq =>
        rw [← heq, hkey]
        exact ⟨rfl, h.needs hname⟩
      · rw [get?_names, Option.isSome_map] at hsome
        exact h.taken key hsome

/-- More of the log. -/
theorem log (h : s.AtHome o requests) (events : List Event) : (s.log events).AtHome o requests :=
  ⟨h.entry, h.file, h.literal.extend (List.append_nil _).symm rfl (fun _ => id) fun _ _ => id,
    h.needed, h.taken⟩

end Harvest.AtHome

/-! ### The steps of a search -/

namespace Resolution

open Harvest

variable {r r' : Resolution} {external : Bool} {files : String → Option Outline}

/-- **Looking for a name** leaves work in the script only. -/
theorem atHome_stage {q : Query} {queue : List Query} {missing : List (Query × Binding)}
    {starred : List Query} {found : Found} (hhome : o.AtHome world requests)
    (h : s.AtHome o requests) (hstage : (Stage.names (q :: queue) missing starred).AtHome world o s)
    (hlooks : Looks s o q s' found) :
    (found.stage q queue missing starred).AtHome world o s' := by
  obtain ⟨hqueue, hmissing, rfl⟩ := hstage
  obtain ⟨hinside, hname⟩ := hqueue q List.mem_cons_self
  have hqueue' : ∀ query ∈ queue, query.external = false ∧ s'.nameOf query.ref = some query.name :=
    fun query hquery => (hqueue query (List.mem_cons_of_mem _ hquery)).imp_right
      (Harvest.AtHome.nameOf_of_records hlooks.records)
  cases found with
  | settled => exact ⟨hqueue', hmissing, rfl⟩
  | elsewhere binding =>
    refine ⟨hqueue', fun m hm => ?_, rfl⟩
    rcases List.mem_append.mp hm with hm | hm
    · exact hmissing m hm
    · rw [List.mem_singleton.mp hm]
      cases hlooks with
      | elsewhere hr ha =>
        rw [hinside] at ha
        exact (hhome.absent q.name binding (h.needs hname)
          ((Outline.answer_inside ha).2 binding rfl)).2
  | starred =>
    cases hlooks with
    | starred hr ha =>
      have hexternal := Outline.external_of_starred ha
      rw [hinside] at hexternal
      exact absurd hexternal (by simp)
  | declared queries =>
    refine ⟨fun query hquery => ?_, hmissing, rfl⟩
    rcases List.mem_append.mp hquery with hquery | hquery
    · exact hqueue' query hquery
    · exact hlooks.named query hquery

/-- The modules that names come from are those of the names that were set aside. -/
theorem exists_of_mem_groups (s : Harvest) (missing : List (Query × Binding))
    {g : String × List Query} (hg : g ∈ s.groups missing) :
    ∃ m ∈ missing, m.2.specifier = g.1 := by
  have hkeys : ∀ items : List (Query × Binding), Table.keys (items.foldl
      (fun table m =>
        let found := (Table.get? table m.2.specifier).getD []
        Table.put table m.2.specifier
          (found ++ [⟨m.1.ref, m.2.foreignName, true⟩]))
        ([] : Table String (List Query))) ⊆ items.map (·.2.specifier) := by
    intro items
    induction items using List.reverseRecOn with
    | nil => exact List.nil_subset _
    | append_singleton items m ih =>
      obtain ⟨query, binding⟩ := m
      rw [List.foldl_append, List.map_append]
      intro specifier hspecifier
      rw [List.foldl_cons, List.foldl_nil, Table.keys_put] at hspecifier
      split at hspecifier
      · exact List.mem_append_left _ (ih hspecifier)
      · exact (List.mem_append.mp hspecifier).elim
          (fun hmem => List.mem_append_left _ (ih hmem)) fun hmem => List.mem_append_right _ hmem
  obtain ⟨m, hm, heq⟩ := List.mem_map.mp (hkeys _ (List.mem_map.mpr ⟨g, hg, rfl⟩))
  exact ⟨m, (List.mem_filter.mp hm).1, heq⟩

/-- **A step of a search that stays at home** reads no file, and the search stays at home. -/
theorem AtHome.step (h : r.AtHome world o requests) (hhome : o.AtHome world requests)
    (hsearching : Searching world files external r) :
    (r.frames = [] ∧ step world r = .finished r.harvest) ∨
      ∃ r', step world r = .running r' ∧ r'.AtHome world o requests ∧
        r'.harvest.files = r.harvest.files := by
  obtain ⟨s, frames⟩ := r
  obtain ⟨hs, hframes⟩ := h
  rcases hframes with hframes | ⟨stage, hframes, hstage⟩
  · obtain rfl : frames = [] := hframes
    exact Or.inl ⟨rfl, rfl⟩
  obtain rfl : frames = [⟨o, stage⟩] := hframes
  refine Or.inr ?_
  cases stage with
  | names queue missing starred =>
    cases queue with
    | nil =>
      refine ⟨_, rfl, ⟨hs, Or.inr ⟨_, rfl, fun g hg => ?_, hstage.2.2⟩⟩, rfl⟩
      obtain ⟨m, hm, heq⟩ := exists_of_mem_groups s missing hg
      rw [← heq]
      exact hstage.2.1 m hm
    | cons q queue =>
      cases hlook : s.look o q with
      | mk s' found =>
        have hlooks := hsearching.looks_of_look hlook
        have hstep : step world ⟨s, [⟨o, .names (q :: queue) missing starred⟩]⟩ =
          .running ⟨s', [⟨o, found.stage q queue missing starred⟩]⟩ := (Stepped.names hlook).step_eq
        obtain ⟨-, hchanges⟩ := hsearching.step hstep
        obtain ⟨hinside, hname⟩ := hstage.1 q List.mem_cons_self
        exact ⟨_, hstep, ⟨hs.looks (hsearching.grounded.outline _ o hs.file).2 hlooks hchanges
          hinside hname, Or.inr ⟨_, rfl, atHome_stage hhome hs hstage hlooks⟩⟩,
          hlooks.records.files⟩
  | modules groups starred =>
    cases groups with
    | nil =>
      exact ⟨_, rfl, ⟨hs, Or.inr ⟨_, rfl, hstage.2⟩⟩, rfl⟩
    | cons g groups =>
      -- the module is not there
      obtain ⟨specifier, queries⟩ := g
      have hmodule := hstage.1 _ List.mem_cons_self
      generalize hlocate : world.locate specifier o.path = located at hmodule
      obtain ⟨result, events⟩ := located
      obtain rfl : result = .ok none := hmodule
      obtain ⟨events', hmodule⟩ : ∃ events', s.moduleOutline world o.path specifier queries =
          ((s.log events).log events', .ok none) := by
        rw [moduleOutline, hlocate]
        exact ⟨_, rfl⟩
      exact ⟨_, (Stepped.module (Enters.nowhere hmodule)).step_eq,
        ⟨(hs.log events).log events', Or.inr ⟨_, rfl, fun g hg =>
        hstage.1 g (List.mem_cons_of_mem _ hg), hstage.2⟩⟩, rfl⟩
  | stars specifiers pending =>
    obtain rfl : pending = [] := hstage
    exact ⟨⟨s, []⟩, (Stepped.leave (Or.inr rfl)).step_eq, ⟨hs, Or.inl rfl⟩, rfl⟩

/-- **A search that stays at home** does so in all its states. -/
theorem AtHome.steps (h : r.AtHome world o requests) (hhome : o.AtHome world requests)
    (hsearching : Searching world files external r) (hsteps : Steps world r r') :
    r'.AtHome world o requests := by
  induction hsteps with
  | refl => exact h
  | tail hsteps hstep ih =>
    rcases ih.step hhome (hsearching.steps hsteps).1 with ⟨-, hend⟩ | ⟨next, hnext, hat, -⟩
    · exact absurd (hend.symm.trans hstep) (by simp)
    · rw [← Progress.running.inj (hnext.symm.trans hstep)]
      exact hat

end Resolution

namespace Harvest

/-- The search for what a script asks for begins at home. -/
theorem Unsearched.atHome (h : s.Unsearched o) (hentry : s.entry = some o.path)
    (requests : List RootRequest) : (s.begun o requests false).AtHome world o requests := by
  have hsynonyms : s.synonyms = .empty := congrArg synonyms h.eq
  have hgrafts : s.grafts = [] := congrArg grafts h.eq
  rw [begun_eq h]
  refine ⟨⟨hentry, h.file, ⟨?_, ?_⟩, ?_, ?_⟩, Or.inr ⟨_, rfl, ?_, by simp, rfl⟩⟩
  · change s.synonyms.Literal _ _
    rw [hsynonyms]
    exact Synonyms.literal_empty
  · intro ref key hkey
    obtain ⟨r, hr, hkey⟩ := Option.bind_eq_some_iff.mp hkey
    rw [(of_mem_rootReferences (List.mem_of_getElem? hr)).1] at hkey
    exact absurd hkey (by simp)
  · intro r hr
    obtain ⟨r₀, hr₀, rfl⟩ := List.mem_map.mp hr
    obtain ⟨request, hrequest, rfl⟩ :=
      List.mem_map.mp (show r₀ ∈ rootReferences o requests from hr₀)
    exact Outline.Needs.request hrequest
  · intro key hkey
    change (s.graft? key).isSome at hkey
    rw [graft?, hgrafts] at hkey
    exact absurd hkey (by simp)
  · intro q hq
    obtain ⟨⟨request, ref⟩, hmem, rfl⟩ := List.mem_map.mp hq
    obtain ⟨i, hi⟩ := List.mem_iff_getElem?.mp hmem
    obtain ⟨hrequest, href⟩ := List.getElem?_zip_eq_some.mp hi
    obtain rfl : i = ref := by
      obtain ⟨hlt, href⟩ := List.getElem?_eq_some_iff.mp href
      rwa [List.getElem_range] at href
    refine ⟨rfl, nameOf_of_reference?
      (r := Reference.ofRequest o.path request.name request.span request.line) ?_⟩
    change (rootReferences o requests)[i]? = _
    rw [rootReferences, List.getElem?_map, hrequest]
    rfl

/-- **The search for what a script asks for**, if the script is at home, comes to its end in the
script. -/
theorem exists_search_of_atHome (hopened : Opened world s o) (hentry : s.entry = some o.path)
    (hhome : o.AtHome world requests) :
    ∃ s', s.search world o requests false = (s', .ok ()) ∧ s'.AtHome o requests := by
  have hsearching := hopened.unsearched.searching world requests false
  have hat : (s.begun o requests false).AtHome world o requests :=
    hopened.unsearched.atHome hentry requests
  have hstars : ∀ frame ∈ (s.begun o requests false).frames,
      frame.outline.starExports.length ≤ (s.begun o requests false).harvest.fileWeight := by
    intro frame hframe
    have hweight := weight_le_fileWeight (hsearching.orderly frame hframe).file
    rw [Outline.weight] at hweight
    omega
  obtain ⟨last, hsteps, -, hadvance, hread⟩ := Resolution.exists_steps_advance hsearching
    (Resolution.within_vocabulary _) (Resolution.potential_lt_allowance hstars)
  have hlast := hat.steps hhome hsearching hsteps
  -- no step reads a file, so going on ends only where the search does
  rcases hlast.step hhome (hsearching.steps hsteps).1 with ⟨-, hend⟩ | ⟨next, hnext, -, hfiles⟩
  · refine ⟨last.harvest, ?_, hlast.harvest⟩
    have hrun : Resolution.run world (world.places.length + 2) (s.begun o requests false) =
        .finished last.harvest := by
      rw [Resolution.run, hadvance, hend]
    rw [search_eq, hrun]
    rfl
  · exact absurd (by rw [hfiles]) (hread next hnext)

end Harvest

end TypeGraft
