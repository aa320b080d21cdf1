import TypeGraft.Files.World
import TypeGraft.Proofs.Resolution.Session
import TypeGraft.Proofs.Splice.Merge

/-!
# The names of the declarations

Every declaration is named once, when it is taken in, and no two go by one name
(`TypeGraft.Harvest.wellNamed_of_steps`). This is so in every state of every search.

* `TypeGraft.Harvest.Apart`: what keeps the names apart. All names that were given are taken,
  and so are those of the aliases and interfaces of the entry script from the start, which no
  other declaration can get before it is their turn.
* `TypeGraft.Harvest.Title`: the right by which a declaration goes by its name. That a name is
  one from a request is seen only when the step is over in which the declaration is taken in,
  since the reference of the request is resolved after that.
-/

namespace TypeGraft.Harvest

variable {world : World} {s s' : Harvest} {o : Outline} {key : Key} {d : Declaration}
  {name : String}

/-! ### Names stay apart -/

/-- **What keeps the names apart.** -/
structure Apart (o : Outline) (s : Harvest) : Prop where
  entry : s.entry = none ∨ s.entry = some o.path
  file : s.files.get? o.path = some o
  once : s.names.keys.Nodup
  taken : ∀ key e, s.graft? key = some e → e.newName ∈ s.takenNames
  apart : ∀ key key' e e', s.graft? key = some e → s.graft? key' = some e' →
    e.newName = e'.newName → key = key'
  reserved : s.isEntryFile o.path = true → ∀ name d, o.declarations.get? name = some d →
    d.isEnumeration = false → name ∈ s.takenNames ∧
      ∀ key e, s.graft? key = some e → e.newName = name → key = ⟨o.path, name⟩

theorem Apart.keeps (h : s.Apart o) (hk : s.Keeps s') : s'.Apart o := by
  have hentry : s'.isEntryFile o.path = s.isEntryFile o.path := by
    rw [isEntryFile, isEntryFile, hk.entry]
  refine ⟨by rw [hk.entry]; exact h.entry, by rw [hk.files]; exact h.file,
    by rw [hk.names]; exact h.once, ?_, ?_, ?_⟩
  · intro key e he
    obtain ⟨e₀, he₀, -, hn⟩ := hk.symm.graft he
    rw [hk.takenNames, ← hn]
    exact h.taken key e₀ he₀
  · intro key key' e e' he he' hsame
    obtain ⟨e₀, he₀, -, hn⟩ := hk.symm.graft he
    obtain ⟨e₁, he₁, -, hn'⟩ := hk.symm.graft he'
    exact h.apart key key' e₀ e₁ he₀ he₁ (hn.trans (hsame.trans hn'.symm))
  · intro hfile name d hd hnot
    obtain ⟨htaken, honly⟩ := h.reserved (hentry.symm.trans hfile) name d hd hnot
    refine ⟨by rw [hk.takenNames]; exact htaken, ?_⟩
    intro key e he hname
    obtain ⟨e₀, he₀, -, hn⟩ := hk.symm.graft he
    exact honly key e₀ he₀ (hn.trans hname)

/-- A name that may be chosen was not given to another declaration. Only the entry script may
have reserved it, for the declaration itself. -/
theorem Apart.of_named (h : s.Apart o) (hd : s.declaration? d.key = some d)
    {request : Option String} (hn : s.Named d request name) : name ∉ s.takenNames ∨
      s.isEntryFile o.path = true ∧ d.key = ⟨o.path, name⟩ ∧ d.isEnumeration = false ∧
        o.declarations.get? name = some d := by
  cases hn with
  | own hentry hnot =>
    have hfile : d.file = o.path := by
      have hentry : s.entry = some d.file := by simpa [isEntryFile] using hentry
      rcases h.entry with hnone | hsome
      · rw [hnone] at hentry
        exact absurd hentry (by simp)
      · exact Option.some.inj (hentry.symm.trans hsome)
    have hkey : d.key = ⟨o.path, d.name⟩ := by rw [Declaration.key, hfile]
    rw [hkey, declaration?, h.file] at hd
    exact Or.inr ⟨hfile ▸ hentry, hkey, hnot, hd⟩
  | requested _ _ _ hfree => exact Or.inl hfree
  | marked _ _ hfree => exact Or.inl hfree
  | numbered _ _ hfree => exact Or.inl hfree

theorem Apart.takeIn (h : s.Apart o) (request : Option String)
    (hd : s.declaration? d.key = some d) (hg : s.graft? d.key = none) :
    (s.takeIn d request).1.Apart o := by
  obtain ⟨numbers, -, heq⟩ := exists_takeIn s d request hg
  have hchosen := h.of_named hd (named_nameFor s d request)
  generalize hname : (s.nameFor d request).2 = name at heq hchosen
  have hgraft : ∀ key e, (s.takeIn d request).1.graft? key = some e →
      key = d.key ∧ e.newName = name ∨ s.graft? key = some e := by
    intro key e he
    rw [graft?_takeIn request hg, hname] at he
    split at he
    · next hkey =>
      refine Or.inl ⟨hkey.symm, ?_⟩
      rw [← Option.some.inj he]
    · exact Or.inr he
  have htaken : ∀ n, n ∈ (s.takeIn d request).1.takenNames ↔ n ∈ s.takenNames ∨ n = name := by
    intro n
    rw [heq]
    dsimp only
    split
    · next hmem =>
      refine ⟨Or.inl, ?_⟩
      rintro (hn | rfl)
      · exact hn
      · exact hmem
    · simp
  -- no declaration that was named before has the name that is chosen
  have hother : ∀ key e, s.graft? key = some e → e.newName ≠ name := by
    rintro key e he rfl
    rcases hchosen with hfree | ⟨hentry, hkey, hnot, hget⟩
    · exact hfree (h.taken key e he)
    · have hsame := (h.reserved hentry _ d hget hnot).2 key e he rfl
      rw [hsame, ← hkey, hg] at he
      exact absurd he (by simp)
  refine ⟨by rw [heq]; exact h.entry, by rw [heq]; exact h.file, ?_, ?_, ?_, ?_⟩
  · have hnames : (s.takeIn d request).1.names = s.names.put d.key (d, name) := by
      have hnone : s.names.get? d.key = none := by rw [get?_names, hg]; rfl
      rw [Table.put_eq_append _ hnone, heq, names, List.map_append]
      rfl
    rw [hnames]
    exact Table.nodup_keys_put h.once _ _
  · intro key e he
    rw [htaken]
    rcases hgraft key e he with ⟨-, hn⟩ | he
    · exact Or.inr hn
    · exact Or.inl (h.taken key e he)
  · intro key key' e e' he he' hsame
    rcases hgraft key e he with ⟨rfl, hn⟩ | he
    · rcases hgraft key' e' he' with ⟨rfl, -⟩ | he'
      · rfl
      · exact absurd (hsame.symm.trans hn) (hother key' e' he')
    · rcases hgraft key' e' he' with ⟨rfl, hn⟩ | he'
      · exact absurd (hsame.trans hn) (hother key e he)
      · exact h.apart key key' e e' he he' hsame
  · intro hfile n d' hd' hnot
    have hfile : s.isEntryFile o.path = true := by
      rw [heq] at hfile
      exact hfile
    obtain ⟨hmem, honly⟩ := h.reserved hfile n d' hd' hnot
    refine ⟨(htaken n).mpr (Or.inl hmem), ?_⟩
    intro key e he hn
    rcases hgraft key e he with ⟨rfl, hn'⟩ | he
    · obtain rfl : name = n := hn'.symm.trans hn
      rcases hchosen with hfree | ⟨-, hkey, -⟩
      · exact absurd hmem hfree
      · exact hkey
    · exact honly key e he hn

theorem Apart.change (h : s.Apart o) (hc : Change world s s') : s'.Apart o := by
  rcases hc.cases with hk | ⟨d, request, hd, hg, rfl⟩ | ⟨o', -, hnew, -, rfl⟩
  · exact h.keeps hk
  · exact h.takeIn request hd hg
  · refine ⟨h.entry, ?_, h.once, h.taken, h.apart, h.reserved⟩
    exact (Change.file hc h.file)

theorem Apart.changes (h : s.Apart o) (hc : Changes world s s') : s'.Apart o := by
  induction hc with
  | refl => exact h
  | tail _ hstep ih => exact ih.change hstep

/-- **The names that were given stay**, and new ones are listed behind them. -/
theorem Changes.names_grow (hc : Changes world s s') : s.names <+: s'.names := by
  induction hc with
  | refl => exact List.prefix_refl _
  | tail _ hstep ih =>
    refine ih.trans ?_
    rcases hstep.cases with hk | ⟨d, request, -, hg, rfl⟩ | ⟨o', -, -, -, rfl⟩
    · exact hk.names ▸ List.prefix_refl _
    · obtain ⟨numbers, -, heq⟩ := exists_takeIn _ d request hg
      rw [heq, names, names, List.map_append]
      exact List.prefix_append _ _
    · exact List.prefix_refl _

/-! ### The rights to a name -/

/-- **The right by which a declaration goes by its name.** -/
inductive Title (s : Harvest) (key : Key) (d : Declaration) : String → Prop where
  /-- It is an alias or an interface of the entry script. -/
  | own (hentry : s.isEntryFile key.file = true) (hd : d.isEnumeration = false) :
      Title s key d key.name
  /-- It was found for a request of that name. -/
  | requested {ref : RefId} {r : Reference} (hentry : s.isEntryFile key.file = false)
      (hd : d.isEnumeration = false) (hroot : ref ∈ s.roots) (hr : s.reference? ref = some r)
      (htarget : r.target = some key) : Title s key d r.name
  /-- It is its own name with the mark in front. -/
  | marked (hentry : s.isEntryFile key.file = false) (hd : d.isEnumeration = false) :
      Title s key d (stem key.name)
  /-- It is its own name with the mark in front and a number behind it. -/
  | numbered (n : Nat) (hentry : s.isEntryFile key.file = true → d.isEnumeration = true) :
      Title s key d (numbered (stem key.name) n)

theorem Title.changes (h : s.Title key d name) (hc : Changes world s s') :
    s'.Title key d name := by
  have hentry : s'.isEntryFile key.file = s.isEntryFile key.file := by
    rw [isEntryFile, isEntryFile, hc.entry]
  cases h with
  | own hfile hd => exact Title.own (hentry.trans hfile) hd
  | requested hfile hd hroot hr htarget =>
    obtain ⟨r', hr', hg⟩ := hc.reference hr
    have hname : r'.name = _ := congrArg (fun r => r.name) hg.bare
    have htitle : s'.Title key d r'.name := Title.requested (hentry.trans hfile) hd
      (by rw [hc.roots]; exact hroot) hr' (hg.target key htarget)
    rw [hname] at htitle
    exact htitle
  | marked hfile hd => exact Title.marked (hentry.trans hfile) hd
  | numbered n hfile => exact Title.numbered n fun hs => hfile (hentry.symm.trans hs)

/-- A name that was chosen when the reference of a declaration was looked for is one to which the
declaration has a right, when the reference is resolved to it. -/
theorem Named.title {ref : RefId} {r : Reference} (hrooted : s.Rooted)
    (hr : s.reference? ref = some r) (hn : s.Named d (requestOf r) name)
    (hc : Changes world s s') (ht : s'.targetOf ref = some d.key) : s'.Title d.key d name := by
  have hentry : s'.isEntryFile d.key.file = s.isEntryFile d.file := by
    rw [isEntryFile, isEntryFile, hc.entry]
    rfl
  cases hn with
  | own hfile hd => exact Title.own (hentry.trans hfile) hd
  | requested hfile hrequest hd hfree =>
    unfold requestOf at hrequest
    split at hrequest
    · next hkind =>
      obtain rfl := Option.some.inj hrequest
      obtain ⟨r', hr', hg⟩ := hc.reference hr
      have hname : r'.name = r.name := congrArg (fun r => r.name) hg.bare
      rw [← hname]
      refine Title.requested (hentry.trans hfile) hd ?_ hr'
        ((targetOf_of_reference? hr').symm.trans ht)
      rw [hc.roots]
      exact hrooted.root ref r hr hkind
    · exact absurd hrequest (by simp)
  | marked hfile hd hfree => exact Title.marked (hentry.trans hfile) hd
  | numbered n hfile hfree => exact Title.numbered n fun hs => hfile (hentry.symm.trans hs)

/-- Where no request is at hand, a name that does not come from the entry script is marked. -/
theorem Named.mark_prefix (h : s.Named d none name) (hfile : s.isEntryFile d.file = false) :
    inlineMark.toList <+: name.toList := by
  cases h with
  | own hentry => rw [hfile] at hentry; exact absurd hentry (by simp)
  | requested _ hrequest => exact absurd hrequest (by simp)
  | marked => exact mark_prefix_stem d.name
  | numbered n => exact mark_prefix_numbered d.name n

/-- Reading a module takes in no declaration. -/
theorem grafts_moduleOutline (world : World) (s : Harvest) (origin specifier : String)
    (queries : List Query) :
    (s.moduleOutline world origin specifier queries).1.grafts = s.grafts := by
  obtain ⟨files, reads, events, heq⟩ := exists_moduleOutline world s origin specifier queries
  rw [heq]

end TypeGraft.Harvest

namespace TypeGraft

/-- The name that is looked for in the next step, if it is a step that looks for one. -/
def Resolution.next? (r : Resolution) : Option Query :=
  match r.frames with
  | ⟨_, .names (q :: _) _ _⟩ :: _ => some q
  | _ => none

namespace Searching

open Harvest

variable {world : World} {files : String → Option Outline} {external : Bool}

theorem grafts_enter {s : Harvest} {frame : Frame} {rest : List Frame} {specifier : String}
    {queries : List Query} {r' : Resolution}
    (henter : Resolution.Enters world s frame rest specifier queries (.running r')) :
    r'.harvest.grafts = s.grafts := by
  have hgrafts := grafts_moduleOutline world s frame.outline.path specifier queries
  cases henter with
  | nowhere hmodule | file hmodule =>
    rw [hmodule] at hgrafts
    exact hgrafts

/-- **A step takes in a declaration** only for the reference that it looks for, and resolves that
to it. -/
theorem taken {r r' : Resolution} (h : Searching world files external r)
    (hstep : Resolution.step world r = .running r') {key : Key} {e : Graft}
    (hnew : r.harvest.graft? key = none) (he : r'.harvest.graft? key = some e) :
    ∃ q x, r.next? = some q ∧ r.harvest.reference? q.ref = some x ∧
      r.harvest.leavesOut x e.declaration = false ∧ r'.harvest.targetOf q.ref = some key ∧
      r.harvest.Named e.declaration (requestOf x) e.newName := by
  have hsame : r'.harvest.grafts ≠ r.harvest.grafts := by
    intro hsame
    rw [graft?, hsame] at he
    exact absurd (hnew.symm.trans he) (by simp)
  cases Resolution.step_eq_iff.mp hstep with
  | @names _ _ _ q _ _ _ _ _ hlook =>
    obtain ⟨x, hx, hkept, htarget, hnamed⟩ := (h.looked hlook).taken key e hnew he
    exact ⟨q, x, rfl, hx.reference, hkept, htarget, hnamed⟩
  | module henter | star _ henter => exact absurd (grafts_enter henter) hsame
  | regroup | stars | leave => exact absurd rfl hsame

end Searching

/-- The steps of a search are determined. -/
theorem Resolution.Steps.total {world : World} {r r₁ r₂ : Resolution} (h₁ : Steps world r r₁)
    (h₂ : Steps world r r₂) : Steps world r₁ r₂ ∨ Steps world r₂ r₁ := by
  refine Relation.ReflTransGen.total_of_right_unique ?_ h₁ h₂
  intro a b c hb hc
  exact Progress.running.inj (hb.symm.trans hc)

/-- A search takes no more steps where it stops. -/
theorem Resolution.Steps.eq_of_stopped {world : World} {r r' : Resolution} (h : Steps world r r')
    (hstop : ∀ next, step world r ≠ .running next) : r' = r := by
  rcases Relation.ReflTransGen.cases_head h with rfl | ⟨next, hstep, -⟩
  · rfl
  · exact absurd hstep (hstop next)

/-- A search takes no more steps when no work is left. -/
theorem Resolution.Steps.eq_of_frames {world : World} {r r' : Resolution} (h : Steps world r r')
    (hend : r.frames = []) : r' = r := by
  refine h.eq_of_stopped fun next => ?_
  obtain ⟨s, frames⟩ := r
  obtain rfl : frames = [] := hend
  simp [step]

namespace Harvest

variable {world : World} {s s' : Harvest} {o : Outline} {requests : List RootRequest}
  {external : Bool} {r : Resolution}

/-! ### All names -/

/-- **Each declaration goes by a name of its own**, and has a right to it. -/
structure WellNamed (o : Outline) (s : Harvest) : Prop where
  /-- A declaration is named once. -/
  once : s.names.keys.Nodup
  /-- Two declarations do not go by one name. -/
  apart : ∀ key key' e e', s.graft? key = some e → s.graft? key' = some e' →
    e.newName = e'.newName → key = key'
  /-- An alias or an interface of the entry script keeps its name. -/
  own : ∀ key e, s.graft? key = some e → s.isEntryFile key.file = true →
    e.declaration.isEnumeration = false → e.newName = key.name
  /-- Nothing else goes by the name of an alias or an interface that the entry script declares,
  whether that was taken in or not. -/
  reserved : s.isEntryFile o.path = true → ∀ name d, o.declarations.get? name = some d →
    d.isEnumeration = false → ∀ key e, s.graft? key = some e → e.newName = name →
      key = ⟨o.path, name⟩
  /-- An enumeration always has a number. -/
  enumeration : ∀ key e, s.graft? key = some e → e.declaration.isEnumeration = true →
    ∃ n, e.newName = numbered (stem key.name) n
  /-- What is not declared in the entry script, and was not found for a request of its name, has
  the mark in front of its name. -/
  marked : ∀ key e, s.graft? key = some e → s.isEntryFile key.file = false →
    (∀ ref ∈ s.roots, ∀ r, s.reference? ref = some r → r.target = some key → r.name ≠ e.newName) →
      inlineMark.toList <+: e.newName.toList ∧
        (e.newName = stem key.name ∨ ∃ n, e.newName = numbered (stem key.name) n)

theorem Apart.wellNamed (h : s.Apart o)
    (htitle : ∀ key e, s.graft? key = some e → s.Title key e.declaration e.newName) :
    s.WellNamed o := by
  refine ⟨h.once, h.apart, ?_, fun hfile name d hget hd =>
    (h.reserved hfile name d hget hd).2, ?_, ?_⟩
  · intro key e he hentry hd
    have ht := htitle key e he
    generalize e.newName = name at ht
    cases ht with
    | own => rfl
    | requested hnot => rw [hentry] at hnot; exact absurd hnot (by simp)
    | marked hnot => rw [hentry] at hnot; exact absurd hnot (by simp)
    | numbered n henum => rw [henum hentry] at hd; exact absurd hd (by simp)
  · intro key e he hd
    have ht := htitle key e he
    generalize e.newName = name at ht
    cases ht with
    | own _ hnot => rw [hd] at hnot; exact absurd hnot (by simp)
    | requested _ hnot => rw [hd] at hnot; exact absurd hnot (by simp)
    | marked _ hnot => rw [hd] at hnot; exact absurd hnot (by simp)
    | numbered n => exact ⟨n, rfl⟩
  · intro key e he hentry hroots
    have ht := htitle key e he
    generalize e.newName = name at ht hroots
    cases ht with
    | own hfile => rw [hentry] at hfile; exact absurd hfile (by simp)
    | requested _ _ hroot hr htarget => exact absurd rfl (hroots _ hroot _ hr htarget)
    | marked => exact ⟨mark_prefix_stem _, Or.inl rfl⟩
    | numbered n => exact ⟨mark_prefix_numbered _ n, Or.inr ⟨n, rfl⟩⟩

theorem Unsearched.apart (h : s.Unsearched o) (requests : List RootRequest) (external : Bool) :
    (s.begun o requests external).harvest.Apart o := by
  have hnone : ∀ key, s.graft? key = none := by
    intro key
    rw [graft?, show s.grafts = [] from congrArg grafts h.eq]
    rfl
  have hnames : s.names.keys.Nodup := by
    rw [names, show s.grafts = [] from congrArg grafts h.eq]
    exact List.nodup_nil
  rw [begun_eq h]
  refine ⟨h.entry.imp And.left And.left, h.file, hnames, ?_,
    ?_, fun hfile name d hget hd => ⟨?_, ?_⟩⟩
  · intro key e he
    exact absurd ((hnone key).symm.trans he) (by simp)
  · intro key key' e e' he
    exact absurd ((hnone key).symm.trans he) (by simp)
  · rcases h.entry with ⟨hentry, -⟩ | ⟨-, htaken⟩
    · have hfile : (s.entry == some o.path) = true := hfile
      rw [hentry] at hfile
      exact absurd hfile (by simp)
    · change name ∈ s.takenNames
      rw [htaken]
      refine List.mem_map.mpr ⟨(name, d), List.mem_filter.mpr ⟨Table.mem_of_get? hget, ?_⟩, rfl⟩
      rw [hd]
      rfl
  · intro key e he
    exact absurd ((hnone key).symm.trans he) (by simp)

/-- **In every state of a search each declaration has a right to its name.** -/
theorem title_of_steps (hopened : Opened world s o)
    (hsteps : Resolution.Steps world (s.begun o requests external) r) :
    ∀ key e, r.harvest.graft? key = some e → r.harvest.Title key e.declaration e.newName := by
  have hbegun := hopened.unsearched.searching world requests external
  induction hsteps with
  | refl =>
    intro key e he
    have hnone : s.graft? key = none := by
      rw [graft?, show s.grafts = [] from congrArg grafts hopened.unsearched.eq]
      rfl
    rw [begun_eq hopened.unsearched] at he
    exact absurd (hnone.symm.trans he) (by simp)
  | @tail r r' hsteps hstep ih =>
    intro key e he
    obtain ⟨h, hc⟩ := hbegun.steps hsteps
    obtain ⟨-, hchange⟩ := h.step hstep
    cases hold : r.harvest.graft? key with
    | some e₀ =>
      obtain ⟨e', he', hd, hn⟩ := hchange.graft hold
      obtain rfl := Option.some.inj (he'.symm.trans he)
      rw [hd, hn]
      exact (ih key e₀ hold).changes hchange
    | none =>
      -- what is new was taken in for a reference that is now resolved to it
      obtain ⟨q, x, -, hx, -, htarget, hnamed⟩ := h.taken hstep hold he
      have hgrounded := h.grounded.changes hchange
      have hkey : e.declaration.key = key := hgrounded.key_eq (hgrounded.graft key e he)
      have hrooted := (hopened.unsearched.rooted requests external).changes hc
      rw [← hkey] at htarget ⊢
      exact hnamed.title hrooted hx hchange htarget

/-- What a run that splices ends with goes by the names of every state of its search. -/
theorem names_of_searchAndSplice {clean : Cleaning} {orders : Orders} {spliced : Splice}
    (hopened : Opened world s o)
    (hsteps : Resolution.Steps world (s.begun o requests external) r)
    (h : s.searchAndSplice world o requests external clean = (s', .ok (orders, spliced))) :
    r.harvest.names <+: s'.names := by
  obtain ⟨found, hfound, -, hspliced⟩ := exists_search_of_searchAndSplice h
  obtain ⟨last, hlast, hend, rfl⟩ := exists_steps_of_search hfound
  obtain ⟨-, hspliced, -⟩ := exists_splice hspliced
  have hnames : s'.names = last.harvest.names := hspliced
  rw [hnames]
  -- steps are determined, so the state is on the way to the last one
  rcases hsteps.total hlast with hforth | hback
  · have hbegun := hopened.unsearched.searching world requests external
    exact ((hbegun.steps hsteps).1.steps hforth).2.names_grow
  · exact Resolution.Steps.eq_of_frames hback hend ▸ List.prefix_refl _

/-- A declaration that a step takes in for what is not a request has the mark in front of its
name, unless it comes from the entry script. -/
theorem mark_prefix_of_step (hopened : Opened world s o)
    (hsteps : Resolution.Steps world (s.begun o requests external) r) {r' : Resolution}
    (hstep : Resolution.step world r = .running r') {key : Key} {e : Graft}
    (hnew : r.harvest.graft? key = none) (he : r'.harvest.graft? key = some e) :
    ∃ q x, r.next? = some q ∧ r.harvest.reference? q.ref = some x ∧
      r'.harvest.targetOf q.ref = some key ∧
      (x.kind ≠ .root → r'.harvest.isEntryFile key.file = false →
        inlineMark.toList <+: e.newName.toList) := by
  obtain ⟨h, -⟩ := (hopened.unsearched.searching world requests external).steps hsteps
  obtain ⟨-, hchange⟩ := h.step hstep
  obtain ⟨q, x, hnext, hx, -, htarget, hnamed⟩ := h.taken hstep hnew he
  refine ⟨q, x, hnext, hx, htarget, ?_⟩
  intro hkind hfile
  have hgrounded := h.grounded.changes hchange
  have hkey : e.declaration.key = key := hgrounded.key_eq (hgrounded.graft key e he)
  rw [requestOf, if_neg hkind] at hnamed
  refine hnamed.mark_prefix ?_
  rw [← hkey, isEntryFile, hchange.entry] at hfile
  exact hfile

/-- **Each declaration that was taken in goes by a name of its own** in every state of a search. -/
theorem wellNamed_harvest (hopened : Opened world s o)
    (hsteps : Resolution.Steps world (s.begun o requests external) r) : r.harvest.WellNamed o := by
  obtain ⟨-, hchanges⟩ := (hopened.unsearched.searching world requests external).steps hsteps
  have hapart := (hopened.unsearched.apart requests external).changes hchanges
  exact hapart.wellNamed (title_of_steps hopened hsteps)

/-- **The names of a search.** In every state, each declaration that was taken in goes by a name
of its own. The names that were given are not taken back, neither by later steps nor by splicing.
What is taken in for a reference that is not a request has the mark in front of its name, unless
it comes from the entry script. The search for a number ends with a name that was not used, and
the mark is not put in front of a name twice. -/
theorem wellNamed_of_steps (hopened : Opened world s o)
    (hsteps : Resolution.Steps world (s.begun o requests external) r) :
    r.harvest.WellNamed o ∧
    (∀ r', Resolution.Steps world r r' → r.harvest.names <+: r'.harvest.names) ∧
    (∀ clean s' orders spliced,
      s.searchAndSplice world o requests external clean = (s', .ok (orders, spliced)) →
        r.harvest.names <+: s'.names) ∧
    (∀ r', Resolution.step world r = .running r' → ∀ key e, r.harvest.graft? key = none →
      r'.harvest.graft? key = some e →
        ∃ q x, r.next? = some q ∧ r.harvest.reference? q.ref = some x ∧
          r'.harvest.targetOf q.ref = some key ∧
          (x.kind ≠ .root → r'.harvest.isEntryFile key.file = false →
            inlineMark.toList <+: e.newName.toList)) ∧
    (∀ used stem n, numbered stem (freeNumber used stem (used.length + 1) n) ∉ used) ∧
    ∀ name, inlineMark.toList <+: (stem name).toList ∧
      (inlineMark.toList <+: name.toList → stem name = name) := by
  obtain ⟨hsearching, -⟩ :=
    (hopened.unsearched.searching world requests external).steps hsteps
  refine ⟨wellNamed_harvest hopened hsteps, ?_, ?_, ?_, numbered_freeNumber_not_mem,
    fun name => ⟨mark_prefix_stem name, stem_eq_self⟩⟩
  · intro r' hsteps'
    exact (hsearching.steps hsteps').2.names_grow
  · intro clean s' orders spliced
    exact names_of_searchAndSplice hopened hsteps
  · intro r' hstep key e hnew he
    exact mark_prefix_of_step hopened hsteps hstep hnew he

end Harvest

/-! ### Names that are taken -/

/-- One module beside the script, with an alias and an enumeration. -/
def World.oneModule : World :=
  World.ofTree ⟨["w"],
    [(["w", "b.ts"], Bytes.ofString "export type T = string\nexport enum E \x7b X \x7d")]⟩ []

/-- A script that declares an alias under a name that could be chosen for another one. -/
def Harvest.Opening.takenName : Harvest.Opening :=
  .script "/w/App.vue" (Bytes.ofString
    "import \x7b T, E \x7d from './b'\ntype A = T\ntype _INLINE_T = A")

set_option maxRecDepth 100000 in
/-- The alias of the module is numbered, since the script declares its name with the mark in
front, which was not taken in. -/
theorem Harvest.wellNamed_of_steps_takenName :
    ∃ s o s', Opened World.oneModule s o ∧
      s.search World.oneModule o (exportRequests ["A", "E"]) false = (s', .ok ()) ∧
      s'.grafts.map (fun g => (g.1, g.2.newName)) =
        [(⟨"/w/App.vue", "A"⟩, "A"), (⟨"/w/b.ts", "E"⟩, "_INLINE_E_0"),
          (⟨"/w/b.ts", "T"⟩, "_INLINE_T_1")] ∧
      s'.WellNamed o := by
  obtain ⟨s, o, s', hopened, hsearch, hexpected⟩ := Harvest.exists_of_comesTo
    (show Harvest.comesTo World.oneModule .takenName ["A", "E"] false (fun _ _ s' =>
      s'.grafts.map (fun g => (g.1, g.2.newName)) =
        [(⟨"/w/App.vue", "A"⟩, "A"), (⟨"/w/b.ts", "E"⟩, "_INLINE_E_0"),
          (⟨"/w/b.ts", "T"⟩, "_INLINE_T_1")]) = true by decide +kernel)
  obtain ⟨r, hsteps, -, rfl⟩ := Harvest.exists_steps_of_search hsearch
  exact ⟨s, o, r.harvest, hopened, hsearch, of_decide_eq_true hexpected,
    (Harvest.wellNamed_of_steps hopened hsteps).1⟩

end TypeGraft
