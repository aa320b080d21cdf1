import Mathlib.Logic.Relation
import TypeGraft.Proofs.Harvest.Linking
import TypeGraft.Proofs.Outline
import TypeGraft.Resolution

/-!
# What can happen to a harvest

`TypeGraft.Harvest.Change` lists all that a step of a search does to what was found so far, each
with the circumstances under which it does so. An invariant that every change keeps is kept by
every step, so it need not be followed through the search.

* `TypeGraft.Harvest.Keeps`: what all changes but two leave alone, which is what was found and
  how it is called. Only taking in a declaration and reading a file go beyond that.
* `TypeGraft.Harvest.Grounded`: a declaration that was taken in is the one that its file
  declares.
* `TypeGraft.Harvest.sources`: what is in a file, as far as a search can tell. It is the same
  before and after every change, whether the file was read by then or not.
-/

namespace TypeGraft.Reference

/-- The mention that a reference is, without what is known of its declaration. -/
def bare (r : Reference) : Reference := { r with target := none, waypoints := [] }

/-- **What is known of a reference is not taken back**, and it stays the same mention. -/
structure Grows (r r' : Reference) : Prop where
  bare : r'.bare = r.bare
  target : ∀ key, r.target = some key → r'.target = some key

theorem Grows.refl (r : Reference) : r.Grows r := ⟨rfl, fun _ h => h⟩

theorem Grows.trans {r r' r'' : Reference} (h : r.Grows r') (h' : r'.Grows r'') : r.Grows r'' :=
  ⟨h'.bare.trans h.bare, fun key ht => h'.target key (h.target key ht)⟩

end TypeGraft.Reference

namespace TypeGraft.Harvest

variable {world : World} {s s' s'' : Harvest}

/-! ### Views of a harvest -/

/-- The declarations that were found, with the names they go by. -/
def names (s : Harvest) : Table Key (Declaration × String) :=
  s.grafts.map fun g => (g.1, g.2.declaration, g.2.newName)

/-- The declaration of a key, by the outline of its file. -/
def declaration? (s : Harvest) (key : Key) : Option Declaration :=
  (s.files.get? key.file).bind fun o => o.declarations.get? key.name

/-- What is in a file, as far as a search can tell. -/
def sources (world : World) (s : Harvest) (path : String) : Option Outline :=
  (s.outlineOf world path).2.toOption

theorem get?_names (s : Harvest) (key : Key) :
    s.names.get? key = (s.graft? key).map fun e => (e.declaration, e.newName) :=
  Table.get?_map (fun e : Graft => (e.declaration, e.newName)) s.grafts key

theorem reference?_modifyReference (s : Harvest) (ref r : RefId) (change : Reference → Reference) :
    (s.modifyReference ref change).reference? r =
      if ref = r then (s.reference? r).map change else s.reference? r := by
  rw [reference?, modifyReference, reference?, List.getElem?_modify]
  split
  · rfl
  · simp

/-! ### What filling slots leaves alone -/

/-- **What most changes leave alone.** -/
structure Keeps (s s' : Harvest) : Prop where
  strict : s'.strict = s.strict
  entry : s'.entry = s.entry
  files : s'.files = s.files
  takenNames : s'.takenNames = s.takenNames
  nextNumbers : s'.nextNumbers = s.nextNumbers
  roots : s'.roots = s.roots
  names : s'.names = s.names

namespace Keeps

theorem refl (s : Harvest) : s.Keeps s := ⟨rfl, rfl, rfl, rfl, rfl, rfl, rfl⟩

theorem trans (h : s.Keeps s') (h' : s'.Keeps s'') : s.Keeps s'' :=
  ⟨h'.strict.trans h.strict, h'.entry.trans h.entry, h'.files.trans h.files,
    h'.takenNames.trans h.takenNames, h'.nextNumbers.trans h.nextNumbers, h'.roots.trans h.roots,
    h'.names.trans h.names⟩

/-- What was found is still there, as it is called. -/
theorem graft (h : s.Keeps s') {key : Key} {e : Graft} (he : s.graft? key = some e) :
    ∃ e', s'.graft? key = some e' ∧ e'.declaration = e.declaration ∧ e'.newName = e.newName := by
  have hget := get?_names s' key
  rw [h.names, get?_names, he] at hget
  obtain ⟨e', he', heq⟩ := Option.map_eq_some_iff.mp hget.symm
  obtain ⟨hd, hn⟩ := Prod.mk.inj heq
  exact ⟨e', he', hd, hn⟩

theorem symm (h : s.Keeps s') : s'.Keeps s :=
  ⟨h.strict.symm, h.entry.symm, h.files.symm, h.takenNames.symm, h.nextNumbers.symm, h.roots.symm,
    h.names.symm⟩

theorem isSome_graft? (h : s.Keeps s') (key : Key) :
    (s'.graft? key).isSome = (s.graft? key).isSome := by
  have hget : (s'.names.get? key).isSome = (s.names.get? key).isSome := by rw [h.names]
  rw [get?_names, get?_names, Option.isSome_map, Option.isSome_map] at hget
  exact hget

theorem declaration? (h : s.Keeps s') (key : Key) : s'.declaration? key = s.declaration? key := by
  rw [Harvest.declaration?, h.files, Harvest.declaration?]

theorem leavesOut (h : s.Keeps s') (r : Reference) (d : Declaration) :
    s'.leavesOut r d = s.leavesOut r d := by
  rw [Harvest.leavesOut, Harvest.leavesOut, isEntryFile, isEntryFile, h.entry]

end Keeps

theorem names_modifyGraft (s : Harvest) (key : Key) (change : Graft → Graft)
    (hd : ∀ e, (change e).declaration = e.declaration) (hn : ∀ e, (change e).newName = e.newName) :
    (s.modifyGraft key change).names = s.names :=
  Table.map_adjust _ _ (fun _ e => by rw [hd, hn]) _ _

theorem keeps_modifyReference (s : Harvest) (ref : RefId) (change : Reference → Reference) :
    s.Keeps (s.modifyReference ref change) := ⟨rfl, rfl, rfl, rfl, rfl, rfl, rfl⟩

theorem keeps_modifyGraft (s : Harvest) (key : Key) (change : Graft → Graft)
    (hd : ∀ e, (change e).declaration = e.declaration) (hn : ∀ e, (change e).newName = e.newName) :
    s.Keeps (s.modifyGraft key change) :=
  ⟨rfl, rfl, rfl, rfl, rfl, rfl, names_modifyGraft s key change hd hn⟩

theorem keeps_fill (s : Harvest) (owner : Key) (span : Span) (text : String) :
    s.Keeps (s.fill owner span text) :=
  keeps_modifyGraft s owner _ (fun _ => rfl) fun _ => rfl

theorem keeps_linkRequest (s : Harvest) (r : Reference) (newName : String) :
    s.Keeps (s.linkRequest r newName) := by
  obtain ⟨rootEdits, heq⟩ := exists_linkRequest s r newName
  rw [heq]
  exact ⟨rfl, rfl, rfl, rfl, rfl, rfl, rfl⟩

theorem keeps_linkParent (s : Harvest) (ref : RefId) (owner key : Key) :
    s.Keeps (s.linkParent ref owner key) := ⟨rfl, rfl, rfl, rfl, rfl, rfl, rfl⟩

theorem keeps_linkSlot (s : Harvest) (r : Reference) (owner key : Key) (newName : String) :
    s.Keeps (s.linkSlot r owner key newName) := by
  let noted : Harvest := { s with dependencies := s.dependencies.addEdge owner key }
  have hnoted : s.Keeps noted := ⟨rfl, rfl, rfl, rfl, rfl, rfl, rfl⟩
  have hgraft : s.Keeps (noted.modifyGraft owner fun e =>
      { e with dependencies := e.dependencies ++ [newName] }) :=
    hnoted.trans (keeps_modifyGraft noted owner _ (fun _ => rfl) fun _ => rfl)
  unfold linkSlot
  dsimp only
  split
  · split
    · exact hgraft
    · exact hgraft.trans (keeps_fill _ owner _ newName)
  · exact hgraft

theorem keeps_link (s : Harvest) (ref : RefId) (key : Key) : s.Keeps (s.link ref key) := by
  have hresolve : s.Keeps (s.resolve ref key) := keeps_modifyReference s ref _
  generalize hlink : s.link ref key = s'
  cases linking_of_link hlink with
  | idle => exact Keeps.refl s
  | request => exact hresolve.trans (keeps_linkRequest _ _ _)
  | parent => exact hresolve.trans (keeps_linkParent _ ref _ key)
  | slot => exact hresolve.trans (keeps_linkSlot _ _ _ key _)

theorem keeps_leaveOut (s : Harvest) (ref : RefId) (key : Key) : s.Keeps (s.leaveOut ref key) := by
  have hresolve : s.Keeps (s.resolve ref key) := keeps_modifyReference s ref _
  generalize hleave : s.leaveOut ref key = s'
  cases leavingOut_of_leaveOut hleave with
  | idle => exact Keeps.refl s
  | bare => exact hresolve
  | slot => exact hresolve.trans (keeps_fill _ _ _ _)

/-! ### The changes -/

/-- **What a step of a search does to a harvest.** -/
inductive Change (world : World) : Harvest → Harvest → Prop where
  /-- Books are kept. -/
  | note {s : Harvest} (synonyms : Synonyms) (events : List Event) (reads : List String)
      (parentRefs : Table Key (List RefId)) :
      Change world s { s with synonyms, events, reads, parentRefs }
  /-- A reference comes to a place. -/
  | visit {s : Harvest} (ref : RefId) (place : Waypoint) :
      Change world s (s.modifyReference ref fun r => { r with waypoints := r.waypoints ++ [place] })
  /-- A reference is resolved to a declaration that was taken in. -/
  | link {s : Harvest} {ref r key e} (hr : s.reference? ref = some r) (he : s.graft? key = some e)
      (hl : s.leavesOut r e.declaration = false) : Change world s (s.link ref key)
  /-- A reference is resolved to a declaration whose members are left out. -/
  | leaveOut {s : Harvest} {ref r key d} (hr : s.reference? ref = some r)
      (hd : s.declaration? key = some d) (hl : s.leavesOut r d = true) :
      Change world s (s.leaveOut ref key)
  /-- A declaration is taken in. -/
  | takeIn {s : Harvest} {d : Declaration} (request : Option String)
      (hd : s.declaration? d.key = some d) (hg : s.graft? d.key = none) :
      Change world s (s.takeIn d request).1
  /-- A declaration that was taken in mentions names. -/
  | mention {s : Harvest} {references : List Reference} (h : ∀ r ∈ references, r.target = none ∧
      r.kind ≠ .root ∧ ∃ owner, r.owner = some owner ∧ (s.graft? owner).isSome) :
      Change world s (s.addReferences references).1
  /-- A file is read. -/
  | load {s : Harvest} {o : Outline} (hw : o.WellFormed) (hnew : s.files.get? o.path = none)
      (hsource : s.sources world o.path = some o) : Change world s (s.addFile o)

/-- Some changes, one after the other. -/
abbrev Changes (world : World) : Harvest → Harvest → Prop := Relation.ReflTransGen (Change world)

theorem keeps_note (s : Harvest) (synonyms : Synonyms) (events : List Event) (reads : List String)
    (parentRefs : Table Key (List RefId)) :
    s.Keeps { s with synonyms, events, reads, parentRefs } := ⟨rfl, rfl, rfl, rfl, rfl, rfl, rfl⟩

/-- **Only two changes do not keep what was found** and how it is called. -/
theorem Change.cases (h : Change world s s') :
    s.Keeps s' ∨
    (∃ d request, s.declaration? d.key = some d ∧ s.graft? d.key = none ∧
      s' = (s.takeIn d request).1) ∨
    ∃ o : Outline, o.WellFormed ∧ s.files.get? o.path = none ∧ s.sources world o.path = some o ∧
      s' = s.addFile o := by
  cases h with
  | note synonyms events reads parentRefs => exact Or.inl (keeps_note s _ _ _ _)
  | visit ref place => exact Or.inl (keeps_modifyReference s ref _)
  | link => exact Or.inl (keeps_link s _ _)
  | leaveOut => exact Or.inl (keeps_leaveOut s _ _)
  | takeIn request hd hg => exact Or.inr (Or.inl ⟨_, request, hd, hg, rfl⟩)
  | mention => exact Or.inl ⟨rfl, rfl, rfl, rfl, rfl, rfl, rfl⟩
  | load hw hnew hsource => exact Or.inr (Or.inr ⟨_, hw, hnew, hsource, rfl⟩)

/-! ### Taking in a declaration -/

/-- Choosing a name changes nothing but the numbers that are tried next. -/
theorem exists_nameFor (s : Harvest) (d : Declaration) (request : Option String) :
    ∃ numbers name, s.nameFor d request = ({ s with nextNumbers := numbers }, name) := by
  unfold nameFor
  split
  · exact ⟨_, _, rfl⟩
  · dsimp only
    split
    · exact ⟨_, _, rfl⟩
    · split
      · exact ⟨_, _, rfl⟩
      · exact ⟨_, _, rfl⟩

/-- **A declaration is taken in** under the name that is chosen for it, and behind all that was
found before. -/
theorem exists_takeIn (s : Harvest) (d : Declaration) (request : Option String)
    (hg : s.graft? d.key = none) :
    ∃ numbers, (s.nameFor d request).1 = { s with nextNumbers := numbers } ∧
      s.takeIn d request = ({ s with
        nextNumbers := numbers
        takenNames := if (s.nameFor d request).2 ∈ s.takenNames then s.takenNames
          else s.takenNames ++ [(s.nameFor d request).2]
        grafts := s.grafts ++ [(d.key, ⟨d, (s.nameFor d request).2, [], []⟩)]
        dependencies := s.dependencies.addNode d.key }, (s.nameFor d request).2) := by
  obtain ⟨numbers, name, hname⟩ := exists_nameFor s d request
  have hput : s.grafts.put d.key ⟨d, name, [], []⟩ = s.grafts ++ [(d.key, ⟨d, name, [], []⟩)] :=
    Table.put_eq_append _ hg
  refine ⟨numbers, by rw [hname], ?_⟩
  rw [takeIn, hname]
  dsimp only
  rw [hput]

theorem graft?_takeIn {d : Declaration} (request : Option String) (hg : s.graft? d.key = none)
    (key : Key) : (s.takeIn d request).1.graft? key =
      if d.key = key then some ⟨d, (s.nameFor d request).2, [], []⟩ else s.graft? key := by
  obtain ⟨numbers, -, heq⟩ := exists_takeIn s d request hg
  have hput : s.grafts.put d.key ⟨d, (s.nameFor d request).2, [], []⟩ =
      s.grafts ++ [(d.key, ⟨d, (s.nameFor d request).2, [], []⟩)] := Table.put_eq_append _ hg
  rw [heq, graft?, graft?]
  dsimp only
  rw [← hput, Table.get?_put]

/-! ### What every change keeps -/

/-- **What was found stays**, with its declaration and its name. -/
theorem Change.graft (h : Change world s s') {key : Key} {e : Graft} (he : s.graft? key = some e) :
    ∃ e', s'.graft? key = some e' ∧ e'.declaration = e.declaration ∧ e'.newName = e.newName := by
  rcases h.cases with hk | ⟨d, request, -, hg, rfl⟩ | ⟨o, -, -, -, rfl⟩
  · exact hk.graft he
  · refine ⟨e, ?_, rfl, rfl⟩
    rw [graft?_takeIn request hg, if_neg, he]
    rintro rfl
    rw [hg] at he
    exact absurd he (by simp)
  · exact ⟨e, he, rfl, rfl⟩

theorem Changes.graft (h : Changes world s s') {key : Key} {e : Graft}
    (he : s.graft? key = some e) :
    ∃ e', s'.graft? key = some e' ∧ e'.declaration = e.declaration ∧ e'.newName = e.newName := by
  induction h with
  | refl => exact ⟨e, he, rfl, rfl⟩
  | tail _ hstep ih =>
    obtain ⟨e₁, he₁, hd₁, hn₁⟩ := ih
    obtain ⟨e₂, he₂, hd₂, hn₂⟩ := hstep.graft he₁
    exact ⟨e₂, he₂, hd₂.trans hd₁, hn₂.trans hn₁⟩

theorem Change.isSome_graft? (h : Change world s s') {key : Key} (he : (s.graft? key).isSome) :
    (s'.graft? key).isSome := by
  obtain ⟨e, he⟩ := Option.isSome_iff_exists.mp he
  obtain ⟨e', he', -⟩ := h.graft he
  rw [he']
  rfl

theorem Changes.isSome_graft? (h : Changes world s s') {key : Key} (he : (s.graft? key).isSome) :
    (s'.graft? key).isSome := by
  induction h with
  | refl => exact he
  | tail _ hstep ih => exact hstep.isSome_graft? ih

theorem Change.entry (h : Change world s s') : s'.entry = s.entry := by
  rcases h.cases with hk | ⟨d, request, -, hg, rfl⟩ | ⟨o, -, -, -, rfl⟩
  · exact hk.entry
  · obtain ⟨numbers, -, heq⟩ := exists_takeIn s d request hg
    rw [heq]
  · rfl

theorem Changes.entry (h : Changes world s s') : s'.entry = s.entry := by
  induction h with
  | refl => rfl
  | tail _ hstep ih => exact hstep.entry.trans ih

theorem Change.roots (h : Change world s s') : s'.roots = s.roots := by
  rcases h.cases with hk | ⟨d, request, -, hg, rfl⟩ | ⟨o, -, -, -, rfl⟩
  · exact hk.roots
  · obtain ⟨numbers, -, heq⟩ := exists_takeIn s d request hg
    rw [heq]
  · rfl

theorem Changes.roots (h : Changes world s s') : s'.roots = s.roots := by
  induction h with
  | refl => rfl
  | tail _ hstep ih => exact hstep.roots.trans ih

theorem Changes.leavesOut (h : Changes world s s') (r : Reference) (d : Declaration) :
    s'.leavesOut r d = s.leavesOut r d := by
  rw [Harvest.leavesOut, Harvest.leavesOut, isEntryFile, isEntryFile, h.entry]

/-- A file that was read stays. -/
theorem Change.file (h : Change world s s') {path : String} {o : Outline}
    (ho : s.files.get? path = some o) : s'.files.get? path = some o := by
  rcases h.cases with hk | ⟨d', request, -, hg, rfl⟩ | ⟨o', -, hnew, -, rfl⟩
  · rw [hk.files, ho]
  · obtain ⟨numbers, -, heq⟩ := exists_takeIn s d' request hg
    rw [heq]
    exact ho
  · have hne : o'.path ≠ path := by
      rintro rfl
      rw [ho] at hnew
      exact absurd hnew (by simp)
    exact (Table.get?_put_of_ne _ _ hne).trans ho

theorem Changes.file (h : Changes world s s') {path : String} {o : Outline}
    (ho : s.files.get? path = some o) : s'.files.get? path = some o := by
  induction h with
  | refl => exact ho
  | tail _ hstep ih => exact hstep.file ih

theorem Change.declaration? (h : Change world s s') {key : Key} {d : Declaration}
    (hd : s.declaration? key = some d) : s'.declaration? key = some d := by
  obtain ⟨o, ho, hd⟩ := Option.bind_eq_some_iff.mp hd
  exact Option.bind_eq_some_iff.mpr ⟨o, h.file ho, hd⟩

theorem Changes.declaration? (h : Changes world s s') {key : Key} {d : Declaration}
    (hd : s.declaration? key = some d) : s'.declaration? key = some d := by
  obtain ⟨o, ho, hd⟩ := Option.bind_eq_some_iff.mp hd
  exact Option.bind_eq_some_iff.mpr ⟨o, h.file ho, hd⟩

/-- **What was found is what the files declare**, and the outlines of the files are those of
their paths. -/
structure Grounded (s : Harvest) : Prop where
  outline : ∀ path o, s.files.get? path = some o → o.path = path ∧ o.WellFormed
  graft : ∀ key e, s.graft? key = some e → s.declaration? key = some e.declaration

theorem Grounded.key_eq (h : s.Grounded) {key : Key} {d : Declaration}
    (hd : s.declaration? key = some d) : d.key = key := by
  obtain ⟨o, ho, hd⟩ := Option.bind_eq_some_iff.mp hd
  obtain ⟨hpath, hw⟩ := h.outline _ o ho
  rw [hw _ d hd, hpath]

theorem Grounded.change (h : s.Grounded) (hc : Change world s s') : s'.Grounded := by
  have hdecl := @Change.declaration? world s s' hc
  rcases hc.cases with hk | ⟨d, request, hd, hg, rfl⟩ | ⟨o, hw, hnew, -, rfl⟩
  · refine ⟨fun path o ho => h.outline path o (by rwa [hk.files] at ho), ?_⟩
    intro key e he
    obtain ⟨e', he', hd', -⟩ := hk.symm.graft he
    rw [← hd']
    exact hdecl (h.graft key e' he')
  · refine ⟨fun path o ho => h.outline path o ?_, ?_⟩
    · obtain ⟨numbers, -, heq⟩ := exists_takeIn s d request hg
      rw [heq] at ho
      exact ho
    · intro key e he
      rw [graft?_takeIn request hg] at he
      split at he
      · next hkey =>
        rw [← Option.some.inj he, ← hkey]
        exact hdecl hd
      · exact hdecl (h.graft key e he)
  · refine ⟨?_, fun key e he => hdecl (h.graft key e he)⟩
    intro path o' ho'
    rw [addFile] at ho'
    rw [Table.get?_put] at ho'
    split at ho'
    · next hpath =>
      rw [← Option.some.inj ho']
      exact ⟨hpath, hw⟩
    · exact h.outline path o' ho'

theorem Grounded.changes (h : s.Grounded) (hc : Changes world s s') : s'.Grounded := by
  induction hc with
  | refl => exact h
  | tail _ hstep ih => exact ih.change hstep

/-! ### References -/

/-- Of the search, linking a reference to what was found changes only that it is resolved. -/
theorem search_link {ref : RefId} {r : Reference} {key : Key} (hr : s.reference? ref = some r)
    (hg : (s.graft? key).isSome) :
    (s.link ref key).references = (if r.isResolved then s else s.resolve ref key).references ∧
      (s.link ref key).synonyms = s.synonyms := by
  obtain ⟨e, he⟩ := Option.isSome_iff_exists.mp hg
  cases htarget : r.target with
  | some old =>
    rw [link_of_target hr htarget, Reference.isResolved, htarget]
    exact ⟨rfl, rfl⟩
  | none =>
    rw [Reference.isResolved, htarget]
    generalize hlink : s.link ref key = s'
    cases linking_of_link hlink with
    | idle hidle => exact absurd htarget (hidle r e hr he)
    | @request r e =>
      obtain ⟨rootEdits, heq⟩ := exists_linkRequest (s.resolve ref key) r e.newName
      rw [heq]
      exact ⟨rfl, rfl⟩
    | parent => exact ⟨rfl, rfl⟩
    | @slot r e owner =>
      obtain ⟨grafts, heq⟩ := exists_linkSlot (s.resolve ref key) r owner key e.newName
      rw [heq]
      exact ⟨rfl, rfl⟩

theorem search_leaveOut {ref : RefId} {r : Reference} (hr : s.reference? ref = some r)
    (key : Key) :
    (s.leaveOut ref key).references = (if r.isResolved then s else s.resolve ref key).references ∧
      (s.leaveOut ref key).synonyms = s.synonyms := by
  cases htarget : r.target with
  | some old =>
    rw [leaveOut_of_target hr htarget, Reference.isResolved, htarget]
    exact ⟨rfl, rfl⟩
  | none =>
    rw [Reference.isResolved, htarget]
    generalize hleave : s.leaveOut ref key = s'
    cases leavingOut_of_leaveOut hleave with
    | idle hidle => exact absurd htarget (hidle r hr)
    | bare => exact ⟨rfl, rfl⟩
    | slot => exact ⟨rfl, rfl⟩

theorem grows_of_references (h : s'.references = s.references) {ref : RefId} {r : Reference}
    (hr : s.reference? ref = some r) : ∃ r', s'.reference? ref = some r' ∧ r.Grows r' := by
  refine ⟨r, ?_, Reference.Grows.refl r⟩
  rw [reference?, h]
  exact hr

theorem grows_modifyReference {ref i : RefId} {r : Reference} {change : Reference → Reference}
    (h : ∀ r₀, s.reference? ref = some r₀ → r₀.Grows (change r₀))
    (hr : s.reference? i = some r) :
    ∃ r', (s.modifyReference ref change).reference? i = some r' ∧ r.Grows r' := by
  rw [reference?_modifyReference]
  split
  · next he =>
    subst he
    exact ⟨change r, by rw [hr]; rfl, h r hr⟩
  · exact ⟨r, hr, Reference.Grows.refl r⟩

/-- A reference that is resolved unless it was. -/
theorem grows_of_resolve {ref i : RefId} {r r₀ : Reference} {key : Key}
    (hr₀ : s.reference? ref = some r₀)
    (h : s'.references = (if r₀.isResolved then s else s.resolve ref key).references)
    (hr : s.reference? i = some r) : ∃ r', s'.reference? i = some r' ∧ r.Grows r' := by
  split at h
  · exact grows_of_references h hr
  · next hres =>
    have hresolve : ∃ r', (s.resolve ref key).reference? i = some r' ∧ r.Grows r' := by
      refine grows_modifyReference (fun r₁ hr₁ => ⟨rfl, ?_⟩) hr
      intro k hk
      rw [hr₀] at hr₁
      rw [← Option.some.inj hr₁] at hk
      rw [Reference.isResolved, hk] at hres
      exact absurd rfl hres
    obtain ⟨r', hr', hg⟩ := hresolve
    obtain ⟨r'', hr'', hg'⟩ := grows_of_references h hr'
    exact ⟨r'', hr'', hg.trans hg'⟩

/-- **A reference stays, and what is known of it too.** -/
theorem Change.reference (h : Change world s s') {ref : RefId} {r : Reference}
    (hr : s.reference? ref = some r) : ∃ r', s'.reference? ref = some r' ∧ r.Grows r' := by
  cases h with
  | note synonyms events reads parentRefs => exact grows_of_references rfl hr
  | visit i place => exact grows_modifyReference (fun r _ => ⟨rfl, fun _ hk => hk⟩) hr
  | link hr₀ he hl =>
    exact grows_of_resolve hr₀ (search_link hr₀ (by rw [he]; rfl)).1 hr
  | leaveOut hr₀ hd hl => exact grows_of_resolve hr₀ (search_leaveOut hr₀ _).1 hr
  | takeIn request hd hg =>
    obtain ⟨numbers, -, heq⟩ := exists_takeIn s _ request hg
    exact grows_of_references (by rw [heq]) hr
  | mention h =>
    refine ⟨r, ?_, Reference.Grows.refl r⟩
    rw [reference?, addReferences]
    exact (List.getElem?_append_left (List.getElem?_eq_some_iff.mp hr).1).trans hr
  | load hw hnew hsource => exact grows_of_references rfl hr

theorem Changes.reference (h : Changes world s s') {ref : RefId} {r : Reference}
    (hr : s.reference? ref = some r) : ∃ r', s'.reference? ref = some r' ∧ r.Grows r' := by
  induction h with
  | refl => exact ⟨r, hr, Reference.Grows.refl r⟩
  | tail _ hstep ih =>
    obtain ⟨r₁, hr₁, hg₁⟩ := ih
    obtain ⟨r₂, hr₂, hg₂⟩ := hstep.reference hr₁
    exact ⟨r₂, hr₂, hg₁.trans hg₂⟩

theorem Changes.isSome_reference? (h : Changes world s s') {ref : RefId}
    (hr : (s.reference? ref).isSome) : (s'.reference? ref).isSome := by
  obtain ⟨r, hr⟩ := Option.isSome_iff_exists.mp hr
  obtain ⟨r', hr', -⟩ := h.reference hr
  rw [hr']
  rfl

theorem targetOf_of_reference? {ref : RefId} {r : Reference} (h : s.reference? ref = some r) :
    s.targetOf ref = r.target := by
  rw [targetOf, h]
  rfl

/-- A reference that is resolved stays so. -/
theorem Changes.targetOf (h : Changes world s s') {ref : RefId} {key : Key}
    (ht : s.targetOf ref = some key) : s'.targetOf ref = some key := by
  obtain ⟨r, hr, hk⟩ := Option.bind_eq_some_iff.mp ht
  obtain ⟨r', hr', hg⟩ := h.reference hr
  rw [targetOf_of_reference? hr']
  exact hg.target key hk

/-! ### What is in the files -/

theorem sources_of_get? {path : String} {o : Outline} (h : s.files.get? path = some o) :
    s.sources world path = some o := by
  rw [sources, outlineOf, h]
  rfl

/-- Of a file that was not read yet it does not matter what was found so far. -/
theorem sources_congr {path : String} (hstrict : s'.strict = s.strict)
    (hfile : s'.files.get? path = s.files.get? path) :
    s'.sources world path = s.sources world path := by
  unfold sources outlineOf
  rw [hfile]
  split
  · rfl
  · dsimp only
    split
    · rfl
    · rw [hstrict]
      split <;> rfl

/-- **What is in a file does not depend on how far the search is.** -/
theorem Change.sources (h : Change world s s') (path : String) :
    s'.sources world path = s.sources world path := by
  rcases h.cases with hk | ⟨d, request, -, hg, rfl⟩ | ⟨o, -, hnew, hsource, rfl⟩
  · exact sources_congr hk.strict (by rw [hk.files])
  · obtain ⟨numbers, -, heq⟩ := exists_takeIn s d request hg
    exact sources_congr (by rw [heq]) (by rw [heq])
  · by_cases hpath : o.path = path
    · subst hpath
      rw [hsource]
      exact sources_of_get? (Table.get?_put_self _ _ _)
    · exact sources_congr rfl (Table.get?_put_of_ne _ _ hpath)

theorem Changes.sources (h : Changes world s s') (path : String) :
    s'.sources world path = s.sources world path := by
  induction h with
  | refl => rfl
  | tail _ hstep ih => exact (hstep.sources path).trans ih

end TypeGraft.Harvest
