import TypeGraft.Proofs.Harvest.Ranks
import TypeGraft.Proofs.Harvest.Slots
import TypeGraft.Proofs.Splice.Inheritance

/-!
# The tables of a harvest agree

A harvest keeps what it knows of a declaration in several tables: what was found, the two graphs,
the references with what they are resolved to, and the references of the bases. The tables agree in
every state of a search (`TypeGraft.Harvest.Coherent`): what one of them names, the others know.

A reference that was left out is the exception. What it is resolved to was not taken in for it, and
may be in no table.

So nothing is looked up in vain:

* `TypeGraft.Harvest.Resolvable`: where a reference is resolved, all that is asked of the tables for
  its owner is there.
* `TypeGraft.Harvest.Spliceable`: when the search is over, the same holds for the orders and for
  splicing.
-/

namespace TypeGraft

namespace Harvest

variable {world : World} {s : Harvest} {o : Outline} {requests : List RootRequest}
  {external : Bool}

/-! ### Tables that agree -/

/-- **The tables of a harvest agree.** -/
structure Coherent (s : Harvest) : Prop where
  /-- What was taken in is what there are dependencies of, each once. -/
  nodup : s.dependencies.nodes.Nodup
  nodes : ∀ key, key ∈ s.dependencies.nodes ↔ ∃ e, s.graft? key = some e
  /-- It was taken in under its own key, from a file that was read. -/
  declared : ∀ key e, s.graft? key = some e → e.declaration.key = key ∧
    s.declaration? key = some e.declaration
  uses : ∀ u v, s.dependencies.Edge u v → (∃ e, s.graft? u = some e) ∧ ∃ e, s.graft? v = some e
  /-- An interface inherits from what has members. -/
  inherits : ∀ u v, s.inherits.Edge u v →
    (∃ e, s.graft? u = some e ∧ e.declaration.isInterface = true) ∧
      ∃ e, s.graft? v = some e ∧ e.declaration.hasMembers = true
  /-- A reference is resolved to what was taken in, unless that was left out for it. -/
  target : ∀ ref r key, s.reference? ref = some r → r.target = some key →
    s.isLeftOut r key = true ∨ ∃ e, s.graft? key = some e
  requested : ∀ key ∈ s.requestedKeys, ∃ e, s.graft? key = some e
  /-- A reference that is not one of a request stands in what was taken in. -/
  owner : ∀ ref r, s.reference? ref = some r → ref ∉ s.roots →
    ∃ owner e, r.owner = some owner ∧ s.graft? owner = some e
  /-- The bases of an interface have one reference each, in the order in which they are named. -/
  bases : ∀ key e, s.graft? key = some e → e.declaration.isInterface = true →
    ∃ refs, s.parentRefs.get? key = some refs ∧
      List.Forall₂ (fun base ref => s.NamesBase key (base, ref)) e.declaration.bases refs

/-- **All that resolving a reference looks up for its owner**: what was taken in, its file, and for
a base its place in the list. -/
def Resolvable (s : Harvest) : Prop :=
  ∀ ref r owner, s.reference? ref = some r → r.owner = some owner →
    (∃ e, s.graft? owner = some e) ∧ (∃ o, s.files.get? owner.file = some o) ∧
      (r.kind = .extends_ → ∃ refs, s.parentRefs.get? owner = some refs ∧
        refs.findIdx (· = ref) < refs.length)

/-- **All that splicing looks up.** -/
structure Spliceable (s : Harvest) (orders : Orders) : Prop where
  /-- What goes into the block, or is merged into something. -/
  block : ∀ key ∈ orders.blockOrder, ∃ e, s.graft? key = some e
  absorb : ∀ key ∈ orders.absorbOrder, ∃ e, s.graft? key = some e
  ancestors : ∀ key, ∀ base ∈ s.ancestors key, ∃ e, s.graft? base = some e
  /-- The bodies of all of these. -/
  bodies : ∀ own, s.filledBodies = .ok own → ∀ key e, s.graft? key = some e →
    ∃ body, own.get? key = some body
  /-- The places by which the bases are put in order. -/
  places : ∀ key base, s.inherits.Edge key base → ∃ i, s.parentOrder.get? (key, base) = some i
  /-- What the bases of an interface were resolved to. -/
  parents : ∀ key e, s.graft? key = some e → ∀ clause ∈ s.heritages e.declaration,
    ∀ base, s.targetOf clause.2 = some base → ∃ e, s.graft? base = some e
  /-- The script that is edited. -/
  entry : ∀ path, s.entry = some path → ∃ o, s.files.get? path = some o

/-- Only the type of a property is left out. -/
theorem not_isLeftOut {r : Reference} (hnested : r.nested = false) (key : Key) :
    s.isLeftOut r key = false := by
  rw [isLeftOut]
  cases s.declaration? key with
  | none => rfl
  | some d => rw [Option.any_some, leavesOut, hnested, Bool.false_and, Bool.false_and]

/-! ### Every state of a search -/

section Steps

variable {r : Resolution}

theorem ranked_of_steps (hopened : Opened world s o)
    (hsteps : Resolution.Steps world (s.begun o requests external) r) :
    r.harvest.Ranked ∧ r.harvest.HasLists := by
  have hunsearched := hopened.unsearched
  have hsearching := hunsearched.searching world requests external
  induction hsteps with
  | refl =>
    have hinherits : s.inherits = .empty := congrArg Harvest.inherits hunsearched.eq
    have hgrafts : s.grafts = [] := congrArg Harvest.grafts hunsearched.eq
    rw [begun_eq hunsearched]
    constructor
    · intro u v hedge
      have hedge : s.inherits.Edge u v := hedge
      rw [hinherits] at hedge
      exact absurd hedge List.not_mem_nil
    · intro key e he
      have he : s.graft? key = some e := he
      rw [graft?, hgrafts] at he
      exact absurd he (by simp)
  | tail hsteps hstep ih =>
    cases (hsearching.steps hsteps).1.moves hstep with
    | look _ hlooks =>
      exact ⟨ih.1.looks (clauses_of_steps hopened hsteps) hlooks, ih.2.records hlooks.records⟩
    | turn _ hkept =>
      obtain ⟨files, reads, events, hkept⟩ := hkept
      rw [hkept]
      exact ⟨fun u v hedge => ih.1 u v hedge, fun key e he => ih.2 key e he⟩

/-- A search begins with the references of the requests. -/
theorem owned_begun (h : s.Unsearched o) (requests : List RootRequest) (external : Bool) :
    (s.begun o requests external).harvest.Owned := by
  rw [begun_eq h]
  intro ref r hr href
  have hlt := (List.getElem?_eq_some_iff.mp hr).1
  rw [rootReferences, List.length_map] at hlt
  exact absurd (List.mem_range.mpr hlt) href

/-- The script that asks for types is one of the files that were read. -/
theorem exists_entry (hopened : Opened world s o)
    (hc : Changes world (s.begun o requests external).harvest r.harvest) {path : String}
    (hpath : r.harvest.entry = some path) : ∃ o, r.harvest.files.get? path = some o := by
  have hunsearched := hopened.unsearched
  rw [hc.entry] at hpath
  have hpath : s.entry = some path := hpath
  rcases hunsearched.entry with ⟨hnone, -⟩ | ⟨hsome, -⟩
  · rw [hnone] at hpath
    exact absurd hpath (by simp)
  · obtain rfl := Option.some.inj (hsome.symm.trans hpath)
    exact ⟨o, hc.file hunsearched.file⟩

/-- **The tables agree in every state of a search.** -/
theorem coherent_harvest (hopened : Opened world s o)
    (hsteps : Resolution.Steps world (s.begun o requests external) r) : r.harvest.Coherent := by
  have hunsearched := hopened.unsearched
  obtain ⟨hsearching, hchanges⟩ := (hunsearched.searching world requests external).steps hsteps
  have hgrounded := hsearching.grounded
  have hlinked := (hunsearched.linked requests external).changes hchanges
  have hrooted := (hunsearched.rooted requests external).changes hchanges
  have howned := (owned_begun hunsearched requests external).changes hchanges
  have hclauses := clauses_of_steps hopened hsteps
  have hmembers := inheritsMembers_of_changes hopened hchanges
  have hfound : ∀ key, key ∈ r.harvest.dependencies.nodes ↔ ∃ e, r.harvest.graft? key = some e := by
    intro key
    rw [hlinked.nodes, Option.isSome_iff_exists]
  have hdeclared : ∀ key e, r.harvest.graft? key = some e → e.declaration.key = key ∧
      r.harvest.declaration? key = some e.declaration := fun key e he =>
    ⟨hgrounded.key_eq (hgrounded.graft key e he), hgrounded.graft key e he⟩
  have htarget : ∀ ref x key, r.harvest.reference? ref = some x → x.target = some key →
      r.harvest.isLeftOut x key = true ∨ ∃ e, r.harvest.graft? key = some e := by
    intro ref x key hx hkey
    rcases hlinked.target ref x key hx hkey with ⟨d, hd, hl⟩ | ⟨e, he, -, -⟩
    · refine Or.inl ?_
      rw [isLeftOut, hd]
      exact hl
    · exact Or.inr ⟨e, he⟩
  refine ⟨hlinked.dependencies.nodup, hfound, hdeclared, ?_, ?_, htarget, ?_, ?_, ?_⟩
  · intro u v hedge
    exact ⟨(hfound u).mp (hlinked.dependencies.left u v hedge),
      (hfound v).mp (hlinked.dependencies.right u v hedge)⟩
  · intro u v hedge
    obtain ⟨hv, ref, x, hx, howner, hkind, -⟩ := hmembers u v hedge
    obtain ⟨e, he⟩ := Option.isSome_iff_exists.mp (hlinked.owner ref x u hx howner)
    obtain ⟨heritage, hmem, -⟩ :=
      hclauses.exists_heritage he (hdeclared u e he).1 hx howner hkind
    refine ⟨⟨e, he, ?_⟩, ?_⟩
    · -- what extends something is an interface
      have hbase := List.of_mem_zip hmem
      unfold Declaration.bases at hbase
      unfold Declaration.isInterface
      split at hbase
      · rfl
      · exact absurd hbase.1 List.not_mem_nil
    · cases he' : r.harvest.graft? v with
      | none =>
        rw [hasMembers, he'] at hv
        exact absurd hv (by simp)
      | some e' =>
        rw [hasMembers_of_graft? he'] at hv
        exact ⟨e', rfl, hv⟩
  · intro key hkey
    obtain ⟨ref, href, hkey⟩ := List.mem_filterMap.mp (mem_distinct.mp hkey)
    obtain ⟨x, hx, hnone, hnested⟩ := hrooted.plain ref href
    rw [targetOf_of_reference? hx] at hkey
    -- only the type of a property is left out
    refine (htarget ref x key hx hkey).resolve_left ?_
    rw [not_isLeftOut hnested]
    simp
  · intro ref x hx href
    obtain ⟨owner, howner⟩ := howned ref x hx href
    obtain ⟨e, he⟩ := Option.isSome_iff_exists.mp (hlinked.owner ref x owner hx howner)
    exact ⟨owner, e, howner, he⟩
  · intro key e he hd
    obtain ⟨refs, hrefs⟩ := (ranked_of_steps hopened hsteps).2 key e he hd
    refine ⟨refs, hrefs, ?_⟩
    have hbases := hclauses.bases key e he
    rw [hrefs] at hbases
    refine hbases.imp ?_
    rintro base ref ⟨line, hline⟩
    rw [mentions, List.getElem?_map] at hline
    obtain ⟨x, hx, hbare⟩ := Option.map_eq_some_iff.mp hline
    exact ⟨x, hx, congrArg (fun r => r.owner) hbare, congrArg (fun r => r.kind) hbare,
      congrArg (fun r => r.nested) hbare, congrArg (fun r => r.name) hbare,
      congrArg (fun r => r.span) hbare⟩

/-- **Resolving a reference** looks nothing up in vain. -/
theorem resolvable_harvest (hopened : Opened world s o)
    (hsteps : Resolution.Steps world (s.begun o requests external) r) : r.harvest.Resolvable := by
  have hunsearched := hopened.unsearched
  obtain ⟨-, hchanges⟩ := (hunsearched.searching world requests external).steps hsteps
  have hlinked := (hunsearched.linked requests external).changes hchanges
  intro ref x owner hx howner
  obtain ⟨e, he⟩ := Option.isSome_iff_exists.mp (hlinked.owner ref x owner hx howner)
  obtain ⟨o', ho', -⟩ :=
    Option.bind_eq_some_iff.mp ((coherent_harvest hopened hsteps).declared owner e he).2
  refine ⟨⟨e, he⟩, ⟨o', ho'⟩, fun hkind => ?_⟩
  have hmem := (clauses_of_steps hopened hsteps).isListed ref x owner hx howner hkind
  rw [basesOf] at hmem
  cases hrefs : r.harvest.parentRefs.get? owner with
  | none =>
    rw [hrefs] at hmem
    exact absurd hmem List.not_mem_nil
  | some refs =>
    rw [hrefs] at hmem
    exact ⟨refs, rfl, List.findIdx_lt_length_of_exists ⟨ref, hmem, by simp⟩⟩

/-- **Splicing** looks nothing up in vain. -/
theorem spliceable_orders (hopened : Opened world s o)
    (hsteps : Resolution.Steps world (s.begun o requests external) r) :
    r.harvest.orders.1.Spliceable r.harvest.orders.2 := by
  have hunsearched := hopened.unsearched
  obtain ⟨-, hchanges⟩ := (hunsearched.searching world requests external).steps hsteps
  have hlinked := (hunsearched.linked requests external).changes hchanges
  have hcoherent := coherent_harvest hopened hsteps
  let cut := r.harvest.inherits.cut (r.harvest.inherits.circles Key.le 1)
  have hcut : cut.WellFormed := hlinked.inherits.cut _
  have hparents : ∀ key ∈ cut.nodes, ∃ e, r.harvest.graft? key = some e := fun key hkey =>
    Option.isSome_iff_exists.mp (hlinked.parents key hkey)
  refine ⟨?_, ?_, ?_, ?_, ?_, ?_, ?_⟩
  · intro key hkey
    obtain ⟨root, hroot, -, hpath⟩ :=
      (Digraph.mem_successorsFirst_iff hlinked.dependencies.withInherited).mp hkey
    -- what is not asked for is used by something
    rcases Relation.ReflTransGen.cases_tail hpath with rfl | ⟨u, -, hedge⟩
    · exact hcoherent.requested key hroot
    · rcases Digraph.edge_withInherited_iff.mp hedge with hedge | ⟨-, -, b, -, -, hedge, -⟩
      · exact (hcoherent.uses u key hedge).2
      · exact (hcoherent.uses b key hedge).2
  · intro key hkey
    obtain ⟨root, -, hroot, hpath⟩ := (Digraph.mem_successorsFirst_iff hcut).mp hkey
    exact hparents key (hcut.mem_of_path hroot hpath)
  · intro key base hbase
    obtain ⟨hpath, hne⟩ := path_of_mem_ancestors hbase
    rcases Relation.ReflTransGen.cases_tail hpath with rfl | ⟨u, -, hedge⟩
    · exact absurd rfl hne
    · exact hparents base (hcut.right u base hedge)
  · intro own hown key e he
    exact Option.isSome_iff_exists.mp (isSome_get?_of_filledBodies hown (by rw [he]; rfl))
  · intro key base hedge
    obtain ⟨i, -, hplace, -⟩ :=
      (ranked_of_steps hopened hsteps).1 key base (Digraph.edge_cut_iff.mp hedge).1
    exact ⟨i, hplace⟩
  · intro key e he clause hclause base hbase
    obtain ⟨x, hx, -, -, hnested, -⟩ := ((clauses_of_steps hopened hsteps).heritages he
      (hcoherent.declared key e he).1).2 clause hclause
    have hkey : x.target = some base := (targetOf_of_reference? hx).symm.trans hbase
    refine (hcoherent.target clause.2 x base hx hkey).resolve_left ?_
    rw [not_isLeftOut hnested]
    simp
  · exact fun path hpath => exists_entry hopened hchanges hpath

/-- **The tables of a harvest agree** in every state of a search, and nothing is looked up in vain:
neither where a reference is resolved, nor, should the search end there, in finding the orders and
splicing. -/
theorem coherent_of_steps (hopened : Opened world s o)
    (hsteps : Resolution.Steps world (s.begun o requests external) r) :
    r.harvest.Coherent ∧ r.harvest.Resolvable ∧
      r.harvest.orders.1.Spliceable r.harvest.orders.2 :=
  ⟨coherent_harvest hopened hsteps, resolvable_harvest hopened hsteps,
    spliceable_orders hopened hsteps⟩

end Steps

end Harvest

/-! ### A reference that is left out -/

/-- One module beside the script, with an interface that has two properties: one of a type with
members, and one of an alias. -/
def World.propertyTypes : World :=
  World.ofTree ⟨["w"],
    [(["w", "b.ts"], Bytes.ofString
      ("export interface B \x7b s: Shape; t: Tag[] \x7d\ninterface Shape \x7b x: number \x7d\n" ++
        "type Tag = string"))]⟩ []

/-- A script with an interface that extends the one of the module. -/
def Harvest.Opening.extendsForeignBase : Harvest.Opening :=
  .script "/w/App.vue" (Bytes.ofString
    "import \x7b B \x7d from './b'\ninterface P extends B \x7b own: P[] \x7d")

set_option maxRecDepth 100000 in
/-- The type with members is left out, and so it is in no table, while all else is. -/
theorem Harvest.coherent_of_steps_propertyTypes :
    ∃ s o r, Opened World.propertyTypes s o ∧
      Resolution.Steps World.propertyTypes (s.begun o (exportRequests ["P"]) false) r ∧
      r.harvest.references.map (fun x => (x.name, x.target)) =
        [("P", some ⟨"/w/App.vue", "P"⟩), ("B", some ⟨"/w/b.ts", "B"⟩),
          ("P", some ⟨"/w/App.vue", "P"⟩), ("Shape", some ⟨"/w/b.ts", "Shape"⟩),
          ("Tag", some ⟨"/w/b.ts", "Tag"⟩)] ∧
      r.harvest.grafts.map (·.1) =
        [⟨"/w/App.vue", "P"⟩, ⟨"/w/b.ts", "B"⟩, ⟨"/w/b.ts", "Tag"⟩] ∧
      r.harvest.inherits.edges = [(⟨"/w/App.vue", "P"⟩, ⟨"/w/b.ts", "B"⟩)] ∧
      r.harvest.Coherent ∧ r.harvest.Resolvable ∧
      r.harvest.orders.1.Spliceable r.harvest.orders.2 := by
  obtain ⟨s, o, s', hopened, hsearch, hexpected⟩ := Harvest.exists_of_comesTo
    (show Harvest.comesTo World.propertyTypes .extendsForeignBase ["P"] false (fun _ _ s' =>
      s'.references.map (fun x => (x.name, x.target)) =
        [("P", some ⟨"/w/App.vue", "P"⟩), ("B", some ⟨"/w/b.ts", "B"⟩),
          ("P", some ⟨"/w/App.vue", "P"⟩), ("Shape", some ⟨"/w/b.ts", "Shape"⟩),
          ("Tag", some ⟨"/w/b.ts", "Tag"⟩)] ∧
      s'.grafts.map (·.1) =
        [⟨"/w/App.vue", "P"⟩, ⟨"/w/b.ts", "B"⟩, ⟨"/w/b.ts", "Tag"⟩] ∧
      s'.inherits.edges = [(⟨"/w/App.vue", "P"⟩, ⟨"/w/b.ts", "B"⟩)]) = true by decide +kernel)
  obtain ⟨r, hsteps, -, rfl⟩ := Harvest.exists_steps_of_search hsearch
  obtain ⟨hreferences, hgrafts, hinherits⟩ := of_decide_eq_true hexpected
  exact ⟨s, o, r, hopened, hsteps, hreferences, hgrafts, hinherits,
    Harvest.coherent_of_steps hopened hsteps⟩

end TypeGraft
