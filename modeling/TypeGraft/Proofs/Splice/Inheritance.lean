import TypeGraft.Files.World
import TypeGraft.Proofs.Harvest.Clauses
import TypeGraft.Proofs.Resolution.Termination
import TypeGraft.Proofs.Splice.Ancestors
import TypeGraft.Proofs.Splice.Block

/-!
# What an interface inherits

A type that an interface extends is not lost when the interface is written if its members are merged
in, or if the head still names it, or if it was dropped to break a circle
(`TypeGraft.Harvest.Inherited`). All types that an interface itself names are kept in one of these
ways. Those that its bases name are kept if they have members; any other one is lost with the head
of the base, which is not written, unless the interface happens to extend the same text
(`TypeGraft.Harvest.inherited_iff_of_searchAndSplice`).

So an interface may lose what it inherits. `TypeGraft.Harvest.exists_not_inherited` is a case of two
interfaces in which it does.
-/

namespace TypeGraft

namespace Harvest

variable {world : World} {s s' found : Harvest} {o : Outline} {orders : Orders} {clean : Cleaning}
  {requests : List RootRequest} {external : Bool} {spliced : Splice}

/-! ### Ways to be kept -/

/-- **A type that is extended is kept** in what is written for an interface: `key` is the interface,
and `owner`, which is the interface or one of its bases, is what extends the type. -/
inductive Inherited (s found : Harvest) (orders : Orders) (own : Table Key Bytes)
    (key owner : Key) (clause : Heritage × RefId) : Prop where
  /-- Its members are merged in. -/
  | merged {base : Key} (htarget : s.targetOf clause.2 = some base)
      (hmembers : s.hasMembers base = true) (hbase : base ∈ s.ancestors key)
      (hbody : memberText ((own.get? base).getD []) <:+:
        ((s.absorbParents orders own).2.get? key).getD [])
  /-- The head names it, with its slots filled. -/
  | head {e e' : Graft} {bases : List String} {text : String} (he : s.graft? key = some e)
      (hbases : s.headParents e = .ok bases) (he' : s.graft? owner = some e')
      (htext : heritageText e' clause.1 = .ok text) (hmem : text ∈ bases)
  /-- It was dropped to break a circle. -/
  | dropped {base : Key} (htarget : s.targetOf clause.2 = some base)
      (hedge : found.inherits.Edge owner base) (hcut : ¬s.inherits.Edge owner base)

/-- **An interface repeats** what one of its bases extends: its head names the same text. -/
def Repeats (s : Harvest) (e e' : Graft) (heritage : Heritage) : Prop :=
  ∃ c ∈ s.heritages e.declaration, (s.targetOf c.2).any s.hasMembers = false ∧
    ∃ text, heritageText e c.1 = .ok text ∧ heritageText e' heritage = .ok text

/-- **What is written for a declaration** of the block: its head names `bases`, and `body` is its
own body with what is merged in. -/
def Writes (s : Harvest) (orders : Orders) (own : Table Key Bytes) (key : Key) (e : Graft)
    (line : String) : Prop :=
  ∃ bases body, s.graft? key = some e ∧ s.headParents e = .ok bases ∧
    (((s.absorbParents orders own).2.get? key).getD []).toString? = some body ∧
    line = rendered e bases body

/-- What the head of a declaration names is what it extends and was not merged in. -/
theorem mem_headParents_iff {e : Graft} {bases : List String} (h : s.headParents e = .ok bases)
    {text : String} : text ∈ bases ↔ ∃ c ∈ s.heritages e.declaration,
      (s.targetOf c.2).any s.hasMembers = false ∧ heritageText e c.1 = .ok text := by
  rw [mem_iff_of_mapM h]
  constructor
  · rintro ⟨c, hc, htext⟩
    obtain ⟨hmem, hkept⟩ := List.mem_filter.mp hc
    exact ⟨c, hmem, by simpa using hkept, htext⟩
  · rintro ⟨c, hc, hkept, htext⟩
    exact ⟨c, List.mem_filter.mpr ⟨hc, by simpa using hkept⟩, htext⟩

/-! ### The bases of what was found -/

/-- A step keeps the references of the bases in their places. -/
theorem Clauses.move {r r' : Resolution} (h : r.harvest.Clauses)
    (hmoves : Resolution.Moves world r r') : r'.harvest.Clauses := by
  cases hmoves with
  | look _ hlooks => exact h.records hlooks.records
  | turn _ hkept =>
    obtain ⟨files, reads, events, hkept⟩ := hkept
    rw [hkept]
    exact h.of_eq rfl rfl rfl

/-- **Throughout a search**, each base of what was found stands beside its reference. -/
theorem clauses_of_steps (hopened : Opened world s o) {r : Resolution}
    (hsteps : Resolution.Steps world (s.begun o requests external) r) : r.harvest.Clauses := by
  have hunsearched := hopened.unsearched
  have hsearching := hunsearched.searching world requests external
  induction hsteps with
  | refl =>
    have hgrafts : s.grafts = [] := congrArg Harvest.grafts hunsearched.eq
    have hparents : s.parentRefs = [] := congrArg Harvest.parentRefs hunsearched.eq
    rw [begun_eq hunsearched]
    refine ⟨fun key e he => ?_, fun key _ => ?_, fun ref r owner href howner => ?_⟩
    · have he : s.graft? key = some e := he
      rw [graft?, hgrafts] at he
      exact absurd he (by simp)
    · change s.parentRefs.get? key = none
      rw [hparents]
      rfl
    · obtain ⟨r₀, hr₀, rfl⟩ := List.mem_map.mp (List.mem_of_getElem? href)
      rw [show r₀.bare.owner = none from (of_mem_rootReferences hr₀).2.2.1] at howner
      exact absurd howner (by simp)
  | tail hsteps hstep ih => exact ih.move ((hsearching.steps hsteps).1.moves hstep)

/-- When a search is over, each base of what was found stands beside its reference. -/
theorem clauses_of_search (hopened : Opened world s o)
    (h : s.search world o requests external = (found, .ok ())) : found.Clauses := by
  obtain ⟨r, hsteps, -, rfl⟩ := exists_steps_of_search h
  exact clauses_of_steps hopened hsteps

/-- **Throughout a search**, only what has members is inherited from. -/
theorem inheritsMembers_of_changes (hopened : Opened world s o)
    (h : Changes world (s.begun o requests external).harvest found) : found.InheritsMembers := by
  have hunsearched := hopened.unsearched
  have hinherits : s.inherits = .empty := congrArg Harvest.inherits hunsearched.eq
  have hbegun : (s.begun o requests external).harvest.InheritsMembers := by
    rw [begun_eq hunsearched]
    intro u v hedge
    have hedge : s.inherits.Edge u v := hedge
    rw [hinherits] at hedge
    exact absurd hedge List.not_mem_nil
  exact hbegun.changes h

/-! ### The end of a run -/

/-- **What is left of a search** when its circles are broken and the bodies of all declarations are
filled. -/
structure Arrayed (s found : Harvest) (orders : Orders) (own : Table Key Bytes) : Prop where
  linked : found.Linked
  members : found.InheritsMembers
  grounded : found.Grounded
  keeps : found.Keeps s
  references : s.references = found.references
  inherits : s.inherits = found.inherits.cut (found.inherits.circles Key.le 1)
  absorbOrder : orders.absorbOrder = s.inherits.successorsFirst
    (s.inherits.nodes.filter fun v => 0 < s.inherits.outDegree v)
  clauses : s.Clauses
  bodies : s.filledBodies = .ok own

theorem arrayed_of_searchAndSplice (hopened : Opened world s o)
    (h : s.searchAndSplice world o requests external clean = (s', .ok (orders, spliced))) :
    ∃ found own, s.search world o requests external = (found, .ok ()) ∧
      s'.Arrayed found orders own ∧
      s'.block (s'.absorbParents orders own).2 (s'.blockKeys orders) = .ok spliced.block := by
  obtain ⟨found, hfound, rfl, hspliced⟩ := exists_search_of_searchAndSplice h
  obtain ⟨hsearching, hchanges⟩ := searching_of_search hopened hfound
  have hunsearched := hopened.unsearched
  have hlinked := (hunsearched.linked requests external).changes hchanges
  have hmembers := inheritsMembers_of_changes hopened hchanges
  have hclauses := clauses_of_search hopened hfound
  obtain ⟨⟨grafts, events, rfl⟩, hnames, -, own, hown, hblock⟩ := exists_splice hspliced
  refine ⟨found, own, hfound, ⟨hlinked, hmembers, hsearching.grounded, ?_, rfl, rfl,
    rfl, hclauses.of_eq hnames rfl rfl, hown⟩, hblock⟩
  exact ⟨rfl, rfl, rfl, rfl, rfl, rfl, hnames⟩

namespace Arrayed

variable {own : Table Key Bytes} {key owner : Key} (h : s.Arrayed found orders own)
include h

theorem key_eq {e : Graft} (he : s.graft? key = some e) : e.declaration.key = key := by
  obtain ⟨e₀, he₀, hd, -⟩ := h.keeps.symm.graft he
  rw [← hd]
  exact h.grounded.key_eq (h.grounded.graft key e₀ he₀)

theorem wellFormed : s.inherits.WellFormed := by
  rw [h.inherits]
  exact h.linked.inherits.cut _

theorem hasMembers_iff : s.hasMembers key = found.hasMembers key := by
  have hget : (s.graft? key).map (fun e => (e.declaration, e.newName)) =
      (found.graft? key).map fun e => (e.declaration, e.newName) := by
    rw [← get?_names, h.keeps.names, get?_names]
  rw [hasMembers, hasMembers]
  cases hs : s.graft? key with
  | none =>
    rw [hs] at hget
    rw [Option.map_eq_none_iff.mp hget.symm]
  | some e =>
    rw [hs] at hget
    obtain ⟨e', he', heq⟩ := Option.map_eq_some_iff.mp hget.symm
    rw [he', Option.map_some, Option.map_some, (Prod.mk.inj heq).1]

/-- All that is merged into a declaration was found. -/
theorem isSome_graft? (hkey : (s.graft? key).isSome)
    (howner : owner = key ∨ owner ∈ s.ancestors key) : (s.graft? owner).isSome := by
  rcases howner with rfl | howner
  · exact hkey
  · obtain ⟨hpath, hne⟩ := path_of_mem_ancestors howner
    rcases Relation.ReflTransGen.cases_tail hpath with rfl | ⟨u, -, hedge⟩
    · exact absurd rfl hne
    · rw [h.inherits] at hedge
      rw [h.keeps.isSome_graft?]
      exact h.linked.parents owner
        (h.linked.inherits.right u owner (Digraph.edge_cut_iff.mp hedge).1)

/-- **A base with members** is merged in, or it was dropped to break a circle. -/
theorem inherited_of_members {e : Graft} {clause : Heritage × RefId} {base : Key}
    (howner : owner = key ∨ owner ∈ s.ancestors key) (hkey : (s.graft? key).isSome)
    (he : s.graft? owner = some e) (hclause : clause ∈ s.heritages e.declaration)
    (htarget : s.targetOf clause.2 = some base) (hmembers : s.hasMembers base = true) :
    s.Inherited found orders own key owner clause := by
  obtain ⟨r, hr, hrowner, hkind, hnested, -⟩ :=
    (h.clauses.heritages he (h.key_eq he)).2 clause hclause
  have hr' : found.reference? clause.2 = some r := by
    rw [reference?, ← h.references]
    exact hr
  have hrtarget : r.target = some base := by
    rw [← targetOf_of_reference? hr]
    exact htarget
  have hedge : found.inherits.Edge owner base := by
    rcases h.linked.target _ r base hr' hrtarget with ⟨d, -, hleaves⟩ | ⟨e₀, he₀, -, hedge⟩
    · rw [leavesOut, hnested] at hleaves
      exact absurd hleaves (by simp)
    · have hedge := hedge owner hrowner
      have hbase : e₀.declaration.hasMembers = true := by
        have hfound : found.hasMembers base = true := by rw [← h.hasMembers_iff]; exact hmembers
        rw [hasMembers, he₀] at hfound
        exact hfound
      rw [if_pos ⟨hkind, hbase⟩] at hedge
      exact hedge
  by_cases hkept : s.inherits.Edge owner base
  · -- no path leads back to the interface, so the base is one of those that are listed
    have hpath : s.inherits.Path key owner := by
      rcases howner with rfl | howner
      · exact Relation.ReflTransGen.refl
      · exact (path_of_mem_ancestors howner).1
    have hne : base ≠ key := by
      rintro rfl
      refine Digraph.not_transGen_cut h.linked.inherits Key.le base ?_
      rw [← h.inherits]
      exact Relation.TransGen.tail' hpath hkept
    have hbase := (mem_ancestors_iff h.wellFormed).mpr ⟨hpath.tail hkept, hne⟩
    exact Inherited.merged htarget hmembers hbase (infix_absorbParents h.wellFormed h.absorbOrder
      (isSome_get?_of_filledBodies h.bodies hkey) hbase)
  · exact Inherited.dropped htarget hedge hkept

/-- **What is kept of all that is extended**: what the declaration itself extends, what has members,
and what the declaration repeats. -/
theorem inherited_iff {e e' : Graft} {bases : List String} {clause : Heritage × RefId}
    (howner : owner = key ∨ owner ∈ s.ancestors key) (he : s.graft? key = some e)
    (hbases : s.headParents e = .ok bases) (he' : s.graft? owner = some e')
    (hclause : clause ∈ s.heritages e'.declaration) :
    s.Inherited found orders own key owner clause ↔
      owner = key ∨ (s.targetOf clause.2).any s.hasMembers = true ∨ s.Repeats e e' clause.1 := by
  have hsome : (s.graft? key).isSome := by
    rw [he]
    rfl
  constructor
  · rintro (⟨htarget, hmembers, -, -⟩ | ⟨he₁, hbases₁, he₂, htext, hmem⟩ | ⟨htarget, hedge, -⟩)
    · rw [htarget]
      exact Or.inr (Or.inl hmembers)
    · obtain rfl := Option.some.inj (he.symm.trans he₁)
      obtain rfl := Option.some.inj (he'.symm.trans he₂)
      obtain ⟨c, hc, hplain, hc'⟩ := (mem_headParents_iff hbases₁).mp hmem
      exact Or.inr (Or.inr ⟨c, hc, hplain, _, hc', htext⟩)
    · rw [htarget]
      refine Or.inr (Or.inl ?_)
      change s.hasMembers _ = true
      rw [h.hasMembers_iff]
      exact (h.members _ _ hedge).1
  · have hmembers : (s.targetOf clause.2).any s.hasMembers = true →
        s.Inherited found orders own key owner clause := by
      intro hany
      cases htarget : s.targetOf clause.2 with
      | none =>
        rw [htarget] at hany
        exact absurd hany (by simp)
      | some base =>
        rw [htarget] at hany
        exact h.inherited_of_members howner hsome he' hclause htarget hany
    rintro (rfl | hany | ⟨c, hc, hplain, text, hc', htext⟩)
    · obtain rfl := Option.some.inj (he.symm.trans he')
      by_cases hany : (s.targetOf clause.2).any s.hasMembers = true
      · exact hmembers hany
      · -- what has no members is named in the head
        obtain ⟨text, hmem, htext⟩ := exists_of_mem_of_mapM hbases
          (List.mem_filter.mpr ⟨hclause, by simpa using hany⟩)
        exact Inherited.head he hbases he htext hmem
    · exact hmembers hany
    · exact Inherited.head he hbases he' htext
        ((mem_headParents_iff hbases).mpr ⟨c, hc, hplain, hc'⟩)

end Arrayed

/-- **What an interface inherits** is not lost in three cases. The block has a line for each of its
declarations. Of all types that a declaration or one of its bases extends, the line shows those that
the declaration itself extends, those that have members, and those that it repeats, unless they were
dropped to break a circle; it shows no others. -/
theorem inherited_iff_of_searchAndSplice (hopened : Opened world s o)
    (h : s.searchAndSplice world o requests external clean = (s', .ok (orders, spliced))) :
    ∃ found own lines, s.search world o requests external = (found, .ok ()) ∧
      s'.filledBodies = .ok own ∧ spliced.block = String.intercalate "\n" lines ∧
      List.Forall₂ (fun key line => ∃ e, s'.Writes orders own key e line ∧
        ∀ owner, owner = key ∨ owner ∈ s'.ancestors key → ∃ e', s'.graft? owner = some e' ∧
          (s'.heritages e'.declaration).map Prod.fst = e'.declaration.bases ∧
          ∀ clause ∈ s'.heritages e'.declaration, s'.NamesBase owner clause ∧
            (s'.Inherited found orders own key owner clause ↔
              owner = key ∨ (s'.targetOf clause.2).any s'.hasMembers = true ∨
                s'.Repeats e e' clause.1))
        (s'.blockKeys orders) lines := by
  obtain ⟨found, own, hfound, harrayed, hblock⟩ := arrayed_of_searchAndSplice hopened h
  rw [block] at hblock
  cases hlines : (s'.blockKeys orders).mapM (s'.render (s'.absorbParents orders own).2) with
  | error failure =>
    rw [hlines] at hblock
    exact absurd hblock (by simp [Except.map])
  | ok lines =>
    rw [hlines] at hblock
    refine ⟨found, own, lines, hfound, harrayed.bodies, (Except.ok.inj hblock).symm, ?_⟩
    have hall := (List.forall₂_and_left _ _).mpr ⟨fun key hkey => hkey, forall₂_of_mapM hlines⟩
    refine hall.imp ?_
    rintro key line ⟨hkey, hline⟩
    have hsome := (of_mem_blockKeys hkey).2
    obtain ⟨e, he⟩ := Option.isSome_iff_exists.mp hsome
    rw [render, he] at hline
    dsimp only at hline
    split at hline
    · exact absurd hline (by simp)
    · next bases hbases =>
      split at hline
      · next body hbody =>
        refine ⟨e, ⟨bases, body, he, hbases, hbody, (Except.ok.inj hline).symm⟩, ?_⟩
        intro owner howner
        obtain ⟨e', he'⟩ := Option.isSome_iff_exists.mp (harrayed.isSome_graft? hsome howner)
        obtain ⟨hall, hnamed⟩ := harrayed.clauses.heritages he' (harrayed.key_eq he')
        exact ⟨e', he', hall, fun clause hclause => ⟨hnamed clause hclause,
          harrayed.inherited_iff howner he hbases he' hclause⟩⟩
      · exact absurd hline (by simp)

end Harvest

/-! ### Two heads -/

/-- A module with an interface that extends one with a base of its own, and a type that no file
declares. -/
def World.openHead : World :=
  World.ofTree ⟨["w"],
    [(["w", "main.ts"],
      Bytes.ofString
        ("interface Root \x7b r: string \x7d\ninterface Mid extends Root \x7b m: string \x7d\n" ++
          "export interface P extends Mid, Base0 \x7b p: string \x7d\n"))]⟩ []

/-- A module with an interface that extends one which in turn extends a type that no file
declares. -/
def World.lostHead : World :=
  World.ofTree ⟨["w"],
    [(["w", "main.ts"],
      Bytes.ofString
        ("interface Mid extends Base0 \x7b m: string \x7d\n" ++
          "export interface P extends Mid \x7b p: string \x7d\n"))]⟩ []

namespace Harvest

/-- Whether each type that a declaration of the block or one of its bases extends is one that the
declaration itself extends, or one with members. -/
def keepsAll (s : Harvest) (orders : Orders) : Bool :=
  (s.blockKeys orders).all fun key => (key :: s.ancestors key).all fun owner =>
    (s.graft? owner).all fun e => (s.heritages e.declaration).all fun clause =>
      owner == key || (s.targetOf clause.2).any s.hasMembers

set_option maxRecDepth 100000 in
/-- The type that no file declares stays in the head, and the members of both bases are merged
in. -/
theorem inherited_iff_of_searchAndSplice_openHead :
    ∃ s o s' orders spliced, Opened World.openHead s o ∧
      s.searchAndSplice World.openHead o (exportRequests ["P"]) true .none =
        (s', .ok (orders, spliced)) ∧
      spliced.block = "interface P extends Base0 \x7b r: string; m: string; p: string \x7d" ∧
      ∃ found own lines, List.Forall₂ (fun key line => ∃ e, s'.Writes orders own key e line ∧
        ∀ owner, owner = key ∨ owner ∈ s'.ancestors key → ∃ e', s'.graft? owner = some e' ∧
          ∀ clause ∈ s'.heritages e'.declaration, s'.Inherited found orders own key owner clause)
        (s'.blockKeys orders) lines := by
  obtain ⟨s, o, s', orders, spliced, hopened, hrun, hexpected⟩ := exists_of_splicesTo
    (show comesTo World.openHead (.file "/w/main.ts") ["P"] true (fun _ _ found =>
      found.splicesTo .none fun orders s' spliced =>
        spliced.block = "interface P extends Base0 \x7b r: string; m: string; p: string \x7d" ∧
        s'.keepsAll orders) = true by
      decide +kernel)
  obtain ⟨hblock, hkeeps⟩ := of_decide_eq_true hexpected
  obtain ⟨found, own, lines, -, -, -, hlines⟩ := inherited_iff_of_searchAndSplice hopened hrun
  refine ⟨s, o, s', orders, spliced, hopened, hrun, hblock, found, own, lines, ?_⟩
  refine ((List.forall₂_and_left _ _).mpr ⟨fun key hkey => hkey, hlines⟩).imp ?_
  rintro key line ⟨hkey, e, hline, howners⟩
  refine ⟨e, hline, fun owner howner => ?_⟩
  obtain ⟨e', he', -, hclauses⟩ := howners owner howner
  refine ⟨e', he', fun clause hclause => (hclauses clause hclause).2.mpr ?_⟩
  have hkept := List.all_eq_true.mp (List.all_eq_true.mp hkeeps key hkey) owner
    (List.mem_cons.mpr howner)
  rw [he'] at hkept
  have hkept := List.all_eq_true.mp hkept clause hclause
  rw [Bool.or_eq_true, beq_iff_eq] at hkept
  exact hkept.imp_right Or.inl

/-- Whether a declaration of the block has a base that extends some type which no declaration was
found for, while its own head names nothing. -/
def loses (s : Harvest) (orders : Orders) (name : String) : Bool :=
  (s.blockKeys orders).any fun key => (s.ancestors key).any fun owner =>
    (s.graft? key).any (fun e => (s.headParents e).toOption == some []) &&
      (s.graft? owner).any fun e => (s.heritages e.declaration).any fun clause =>
        clause.1.name == name && (s.targetOf clause.2).isNone

theorem exists_of_loses {s : Harvest} {orders : Orders} {name : String}
    (h : s.loses orders name = true) :
    ∃ key ∈ s.blockKeys orders, ∃ owner ∈ s.ancestors key, ∃ e, s.graft? owner = some e ∧
      ∃ clause ∈ s.heritages e.declaration, clause.1.name = name ∧
        ∀ found own, ¬s.Inherited found orders own key owner clause := by
  obtain ⟨key, hkey, h⟩ := List.any_eq_true.mp h
  obtain ⟨owner, howner, h⟩ := List.any_eq_true.mp h
  obtain ⟨hhead, h⟩ := Bool.and_eq_true_iff.mp h
  cases he : s.graft? owner with
  | none =>
    rw [he] at h
    exact absurd h (by simp)
  | some e =>
    rw [he] at h
    obtain ⟨clause, hclause, h⟩ := List.any_eq_true.mp h
    obtain ⟨hname, hnone⟩ := Bool.and_eq_true_iff.mp h
    have htarget : s.targetOf clause.2 = none := Option.isNone_iff_eq_none.mp hnone
    refine ⟨key, hkey, owner, howner, e, he, clause, hclause, beq_iff_eq.mp hname, ?_⟩
    -- there is no declaration to merge or to drop, and nothing is named
    rintro found own (⟨hsome, -⟩ | ⟨he₁, hbases, -, -, hmem⟩ | ⟨hsome, -⟩)
    · rw [htarget] at hsome
      exact absurd hsome (by simp)
    · rw [he₁] at hhead
      change ((s.headParents _).toOption == some []) = true at hhead
      rw [hbases] at hhead
      obtain rfl := Option.some.inj (beq_iff_eq.mp hhead)
      exact absurd hmem List.not_mem_nil
    · rw [htarget] at hsome
      exact absurd hsome (by simp)

/-- **What a base extends may be lost**: the members of the base are merged in, and the type that it
extends, which no file declares, is named nowhere. -/
theorem exists_not_inherited :
    ∃ s o s' orders spliced found own, Opened World.lostHead s o ∧
      s.searchAndSplice World.lostHead o (exportRequests ["P"]) true .none =
        (s', .ok (orders, spliced)) ∧
      s.search World.lostHead o (exportRequests ["P"]) true = (found, .ok ()) ∧
      s'.filledBodies = .ok own ∧
      spliced.block = "interface P \x7b m: string; p: string \x7d" ∧
      ∃ key ∈ s'.blockKeys orders, ∃ owner ∈ s'.ancestors key, ∃ e, s'.graft? owner = some e ∧
        ∃ clause ∈ s'.heritages e.declaration, clause.1.name = "Base0" ∧
          ¬s'.Inherited found orders own key owner clause := by
  obtain ⟨s, o, s', orders, spliced, hopened, hrun, hexpected⟩ := exists_of_splicesTo
    (show comesTo World.lostHead (.file "/w/main.ts") ["P"] true (fun _ _ found =>
      found.splicesTo .none fun orders s' spliced =>
        spliced.block = "interface P \x7b m: string; p: string \x7d" ∧
        s'.loses orders "Base0") = true by
      decide +kernel)
  obtain ⟨hblock, hloses⟩ := of_decide_eq_true hexpected
  obtain ⟨found, own, hfound, harrayed, -⟩ := arrayed_of_searchAndSplice hopened hrun
  obtain ⟨key, hkey, owner, howner, e, he, clause, hclause, hname, hlost⟩ :=
    exists_of_loses hloses
  exact ⟨s, o, s', orders, spliced, found, own, hopened, hrun, hfound, harrayed.bodies, hblock, key,
    hkey, owner, howner, e, he, clause, hclause, hname, hlost found own⟩

end Harvest

end TypeGraft
