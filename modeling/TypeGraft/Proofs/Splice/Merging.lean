import TypeGraft.Proofs.Outline.Openings
import TypeGraft.Proofs.Splice.Apart
import TypeGraft.Proofs.Splice.Lineage
import TypeGraft.Proofs.Splice.Tables

/-!
# What merging comes to

When a search is over and its circles are broken, the body of each declaration is settled
(`TypeGraft.Harvest.merging_of_search`).

* **An interface that still extends something** has its own body, and right behind the opening brace
  of it the members of all that it extends, directly or not: each base once, and behind its own
  bases (`TypeGraft.Harvest.TakesIn`). The bases are those of a walk in depth which goes along the
  lists of bases (`TypeGraft.Harvest.InDepth`).
* **Any other declaration** keeps its own body.

The opening brace is the first byte of a body with members, and no slot stands before it
(`TypeGraft.Declaration.Opened`); this is why nothing else can be in front of the members. What is
taken in are the bodies that the bases have by themselves, so it does not matter which interface is
done first: merging one after the other comes to the same in every order
(`TypeGraft.Harvest.mergedAlong`).
-/

namespace TypeGraft

/-- **A text that further members can follow**: it is blank, or ends in a semicolon, a comma or a
line feed, not counting spaces and tabulators. -/
def Bytes.Ended (text : Bytes) : Prop :=
  text.trim = [] ∨
    ∃ b ∈ (Bytes.dropEndWhile (fun b => b == 32 || b == 9) text).getLast?,
      b = 0x3b ∨ b = 0x2c ∨ b = 10

/-- The semicolon that ends a text is no blank. -/
theorem ended_semicolon (text : Bytes) : Bytes.Ended (text ++ [0x3b]) := by
  refine Or.inr ⟨0x3b, ?_, Or.inl rfl⟩
  rw [Bytes.dropEndWhile, List.reverse_append, List.reverse_singleton, List.singleton_append,
    List.dropWhile_cons_of_neg (by decide), List.reverse_cons, List.getLast?_concat]
  rfl

/-- A text is left as it is if further members can follow it, and gets a semicolon if not. -/
theorem ended_or_semicolon (text : Bytes) :
    Bytes.Ended
      (let content := Bytes.dropEndWhile (fun b => b == 32 || b == 9) text
      let ended := match content.getLast? with
        | some b => b == 0x3b || b == 0x2c || b == 10
        | none => false
      if text.trim.isEmpty || ended then text else content ++ [0x3b]) := by
  dsimp only
  split
  · next b hlast =>
    split
    · next h =>
      rcases (Bool.or_eq_true _ _).mp h with hblank | hended
      · exact Or.inl (List.isEmpty_iff.mp hblank)
      · exact Or.inr ⟨b, hlast, by simpa [or_assoc] using hended⟩
    · exact ended_semicolon _
  · split
    · next h => exact Or.inl (List.isEmpty_iff.mp (by simpa using h))
    · exact ended_semicolon _

theorem ended_memberText (block : Bytes) : (memberText block).Ended := ended_or_semicolon _

theorem Declaration.hasMembers_of_isInterface {d : Declaration} (h : d.isInterface = true) :
    d.hasMembers = true := by
  unfold Declaration.isInterface at h
  unfold Declaration.hasMembers
  split at h
  · next hshape => rw [hshape]
  · exact absurd h (by simp)

namespace Harvest

variable {world : World} {s s' : Harvest} {o : Outline} {requests : List RootRequest}
  {external : Bool} {key : Key} {e : Graft} {orders : Orders} {own : Table Key Bytes}

/-! ### The opening brace -/

theorem opened_of_outline {strict : Bool} {path : String} {source : Bytes} {events : List Event}
    (h : Script.outline strict path source = .ok (o, events)) : o.Opened := by
  obtain ⟨tree, htree, hscan⟩ := exists_tree_of_outline h
  exact Outline.opened_ofTree htree hscan

theorem opened_of_isParsed (h : o.IsParsed) : o.Opened := by
  obtain ⟨dialect, strict, tree, events, htree, hscan⟩ := h
  exact Outline.opened_ofTree htree hscan

/-- **What was taken in begins** as the declarations of its file do. -/
theorem opened_of_search (hsession : ParsedSession world s o requests external)
    (h : s.search world o requests external = (s', .ok ())) (he : s'.graft? key = some e) :
    ∃ o', s'.files.get? key.file = some o' ∧ e.declaration.Opened o'.source := by
  obtain ⟨o', ho', hd⟩ :=
    Option.bind_eq_some_iff.mp ((sited_of_search hsession.session h).declared key e he).1
  refine ⟨o', ho', ?_⟩
  rcases files_of_search hsession.session.opened h ho' with ⟨-, rfl⟩ | ⟨source, events, -, hscan⟩
  · exact opened_of_isParsed hsession.parsed _ _ hd
  · exact opened_of_outline hscan _ _ hd

/-- **A body with members begins with its brace**, whatever is written into its slots. -/
theorem exists_braced (hsession : ParsedSession world s o requests external)
    (h : s.search world o requests external = (s', .ok ())) (he : s'.graft? key = some e)
    (hmembers : e.declaration.hasMembers = true) : ∃ rest, filledBody e = .ok (0x7b :: rest) := by
  have hsited := sited_of_search hsession.session h
  obtain ⟨o', ho', hopened⟩ := opened_of_search hsession h he
  obtain ⟨o₁, body, hbody, hreads⟩ := hsited.exists_reads he
  obtain rfl := Option.some.inj (hreads.file.symm.trans ho')
  obtain ⟨rest, hcontent⟩ := hopened.braced hmembers
  have hbehind : ∀ slot ∈ (s'.bodyReferences key e.declaration).map
      (fun r => (r.place, s'.reading o₁ r)), e.declaration.body.start + 1 ≤ slot.1.start := by
    intro slot hslot
    obtain ⟨r, hr, rfl⟩ := List.mem_map.mp hslot
    obtain ⟨m, hm, hspan, -⟩ := hsited.exists_mention he ho' hr
    have hplace : r.place = m.span := by rw [Reference.place, hspan]; rfl
    change _ ≤ r.place.start
    rw [hplace]
    exact hopened.members hmembers m hm
  refine ⟨Slots.fill e.declaration.content e.declaration.body.start (e.declaration.body.start + 1)
    ((s'.bodyReferences key e.declaration).map fun r => (r.place, s'.reading o₁ r)), ?_⟩
  rw [hbody, hreads.eq, Slots.fill_eq_append (q := e.declaration.body.start + 1) (le_refl _)
    (by omega) hbehind, hcontent]
  simp

/-! ### One after the other -/

/-- **Merge one after the other**: each interface of a list gets its own body with the members of
all its bases. -/
def mergedAlong (s : Harvest) (own : Table Key Bytes) (order : List Key) : Table Key Bytes :=
  order.foldl (fun bodies key => bodies.put key (s.inheritedBody own key)) own

theorem get?_mergedAlong (s : Harvest) (own : Table Key Bytes) (order : List Key) (key : Key) :
    (s.mergedAlong own order).get? key =
      if key ∈ order then some (s.inheritedBody own key) else own.get? key := by
  induction order using List.reverseRecOn with
  | nil => rfl
  | append_singleton order last ih =>
    rw [mergedAlong, List.foldl_concat, Table.get?_put]
    by_cases hlast : last = key
    · rw [if_pos hlast, hlast, if_pos (List.mem_append_right _ (List.mem_singleton_self key))]
    · rw [if_neg hlast]
      exact ih.trans (by simp [Ne.symm hlast])

theorem get?_absorbParents (s : Harvest) (orders : Orders) (own : Table Key Bytes) (key : Key) :
    (s.absorbParents orders own).2.get? key = (own.get? key).map fun body =>
      if key ∈ orders.absorbOrder then s.inheritedBody own key else body :=
  Table.get?_mapEntry (fun entry =>
    if entry.1 ∈ orders.absorbOrder then s.inheritedBody own entry.1 else entry.2) own key

theorem edge_of_outDegree (h : 0 < s.inherits.outDegree key) :
    ∃ base, s.inherits.Edge key base := by
  obtain ⟨base, hbase⟩ := List.exists_mem_of_length_pos h
  exact ⟨base, Digraph.mem_successors_iff.mp hbase⟩

/-- What extends nothing takes nothing in. -/
theorem inheritedBody_of_outDegree (h : s.inherits.outDegree key = 0) :
    s.inheritedBody own key = (own.get? key).getD [] := by
  have hnil : s.ancestors key = [] := by
    refine List.eq_nil_iff_forall_not_mem.mpr fun base hbase => ?_
    obtain ⟨hpath, hne⟩ := path_of_mem_ancestors hbase
    rcases Relation.ReflTransGen.cases_head hpath with rfl | ⟨next, hedge, -⟩
    · exact hne rfl
    · exact absurd (Digraph.mem_successors_iff.mpr hedge)
        (List.eq_nil_iff_forall_not_mem.mp (List.length_eq_zero_iff.mp h) next)
  rw [inheritedBody, hnil]

/-- Bases that were found in the order in which they are named need no sorting. -/
theorem parentsOf_eq_successors (h : s.inherits.edges.Pairwise fun a b => a.1 = b.1 →
      (s.parentOrder.get? a).getD 0 ≤ (s.parentOrder.get? b).getD 0) (key : Key) :
    s.parentsOf key = s.inherits.successors key := by
  refine List.mergeSort_of_pairwise (List.pairwise_map.mpr ?_)
  refine List.Pairwise.imp_of_mem (fun {a b} ha hb hab => ?_) (h.filter _)
  obtain rfl := of_decide_eq_true (List.mem_filter.mp ha).2
  have hb := of_decide_eq_true (List.mem_filter.mp hb).2
  have hab := hab hb.symm
  rw [show b = (a.1, b.2) from Prod.ext hb rfl] at hab
  exact decide_eq_true hab

/-! ### The bodies in the end -/

/-- **What an interface takes in.** -/
structure TakesIn (s : Harvest) (key : Key) (merged : Bytes) : Prop where
  /-- All that it extends, directly or not. -/
  reached : ∀ base, base ∈ s.ancestors key ↔ Relation.TransGen s.inherits.Edge key base
  /-- Each of them once. -/
  once : (s.ancestors key).Nodup
  /-- A base is behind all that it extends. -/
  ordered : (s.ancestors key).Pairwise fun a b => ¬Relation.TransGen s.inherits.Edge a b
  /-- A walk in depth along the lists of bases comes to them in this order. -/
  inDepth : s.InDepth {key} (s.parentsOf key) (s.ancestors key)
  /-- Their members are right behind the opening brace. -/
  text : ∃ e rest members, s.graft? key = some e ∧ e.declaration.isInterface = true ∧
    filledBody e = .ok (0x7b :: rest) ∧
    List.Forall₂ (fun base text => ∃ e' body, s.graft? base = some e' ∧
      e'.declaration.hasMembers = true ∧ filledBody e' = .ok body ∧ text = memberText body ∧
      text.Ended) (s.ancestors key) members ∧
    merged = 0x7b :: (members.flatten ++ rest)

/-- **What merging comes to**, for bodies that are filled. -/
structure Merging (s : Harvest) (orders : Orders) (own : Table Key Bytes) : Prop where
  /-- The bases of an interface follow each other as they are named. -/
  siblings : ∀ key e, s.graft? key = some e →
    (∀ base, base ∈ s.parentsOf key ↔ s.inherits.Edge key base) ∧ (s.parentsOf key).Nodup ∧
      (s.parentsOf key).Sublist ((s.heritages e.declaration).filterMap fun c => s.targetOf c.2)
  takesIn : ∀ key, 0 < s.inherits.outDegree key → ∃ merged,
    (s.absorbParents orders own).2.get? key = some merged ∧ s.TakesIn key merged
  keeps : ∀ key e, s.graft? key = some e → s.inherits.outDegree key = 0 → ∃ body,
    filledBody e = .ok body ∧ (s.absorbParents orders own).2.get? key = some body
  /-- Any order will do that has all interfaces which extend something. -/
  anyOrder : ∀ order : List Key, (∀ key ∈ order, (s.graft? key).isSome) →
    (∀ key, 0 < s.inherits.outDegree key → key ∈ order) →
    ∀ key, (s.mergedAlong own order).get? key = (s.absorbParents orders own).2.get? key

/-- The members of some bases, each with its text. -/
theorem forall₂_memberText (hown : s.filledBodies = .ok own) {bases : List Key}
    (hbases : ∀ base ∈ bases, ∃ e', s.graft? base = some e' ∧ e'.declaration.hasMembers = true) :
    List.Forall₂ (fun base text => ∃ e' body, s.graft? base = some e' ∧
      e'.declaration.hasMembers = true ∧ filledBody e' = .ok body ∧ text = memberText body ∧
      text.Ended) bases (bases.map fun base => memberText ((own.get? base).getD [])) := by
  rw [List.forall₂_map_right_iff, List.forall₂_same]
  intro base hbase
  obtain ⟨e', he', hmembers⟩ := hbases base hbase
  obtain ⟨body, hbody, hget⟩ := get?_of_filledBodies hown he'
  rw [hget, Option.getD_some]
  exact ⟨e', body, he', hmembers, hbody, rfl, ended_memberText body⟩

theorem inheritedBody_of_braced {rest : Bytes} {base : Key} (hbase : base ∈ s.ancestors key)
    (hkey : own.get? key = some (0x7b :: rest)) : s.inheritedBody own key =
      0x7b :: ((s.ancestors key).flatMap (fun base => memberText ((own.get? base).getD [])) ++
        rest) := by
  rw [inheritedBody, hkey]
  split
  · next hnil =>
    rw [hnil] at hbase
    exact absurd hbase List.not_mem_nil
  · simp [insertMembers]

section Acyclic

variable (hg : s.inherits.WellFormed) (hacyclic : ∀ v, ¬Relation.TransGen s.inherits.Edge v v)
include hg hacyclic

theorem mem_ancestors_iff_transGen {base : Key} :
    base ∈ s.ancestors key ↔ Relation.TransGen s.inherits.Edge key base := by
  rw [mem_ancestors_iff hg]
  constructor
  · rintro ⟨hpath, hne⟩
    exact (Relation.reflTransGen_iff_eq_or_transGen.mp hpath).resolve_left hne
  · intro hpath
    refine ⟨hpath.to_reflTransGen, ?_⟩
    rintro rfl
    exact hacyclic base hpath

theorem takesIn_inheritedBody (hown : s.filledBodies = .ok own) {base : Key} {rest : Bytes}
    (hedge : s.inherits.Edge key base) (he : s.graft? key = some e)
    (hinterface : e.declaration.isInterface = true) (hbraced : filledBody e = .ok (0x7b :: rest))
    (hbases : ∀ u v, s.inherits.Edge u v → ∃ e', s.graft? v = some e' ∧
      e'.declaration.hasMembers = true) : s.TakesIn key (s.inheritedBody own key) := by
  have hwalked := walked_ancestors hg hacyclic key
  have hbase := (mem_ancestors_iff_transGen hg hacyclic).mpr (Relation.TransGen.single hedge)
  obtain ⟨body, hbody, hget⟩ := get?_of_filledBodies hown he
  obtain rfl := Except.ok.inj (hbraced.symm.trans hbody)
  refine ⟨fun base => mem_ancestors_iff_transGen hg hacyclic, hwalked.once, hwalked.ordered,
    inDepth_ancestors hg key, e, rest,
    (s.ancestors key).map fun base => memberText ((own.get? base).getD []), he, hinterface, hbraced,
    forall₂_memberText hown fun base hbase => ?_, ?_⟩
  · obtain ⟨u, -, hlast⟩ := Relation.TransGen.tail'_iff.mp
      ((mem_ancestors_iff_transGen hg hacyclic).mp hbase)
    exact hbases u base hlast
  · rw [inheritedBody_of_braced hbase hget, List.flatMap_def]

end Acyclic

/-- All that extends something takes part in merging. -/
theorem mem_absorbOrder (hg : s.inherits.WellFormed)
    (horder : orders.absorbOrder = s.inherits.successorsFirst
      (s.inherits.nodes.filter fun v => 0 < s.inherits.outDegree v))
    (hkey : 0 < s.inherits.outDegree key) : key ∈ orders.absorbOrder := by
  obtain ⟨base, hedge⟩ := edge_of_outDegree hkey
  have hnode := hg.left key base hedge
  rw [horder, Digraph.mem_successorsFirst_iff hg]
  exact ⟨key, List.mem_filter.mpr ⟨hnode, decide_eq_true hkey⟩, hnode, Relation.ReflTransGen.refl⟩

/-- **What is merged into an interface** does not depend on whether it takes part in merging, if it
extends nothing. -/
theorem get?_absorbParents_eq (horder : ∀ key, 0 < s.inherits.outDegree key →
      key ∈ orders.absorbOrder) (hkey : (own.get? key).isSome) :
    (s.absorbParents orders own).2.get? key = some (s.inheritedBody own key) := by
  obtain ⟨body, hbody⟩ := Option.isSome_iff_exists.mp hkey
  rw [get?_absorbParents, hbody, Option.map_some]
  split
  · rfl
  · next hmem =>
    have hnone := Nat.eq_zero_of_not_pos fun hpos => hmem (horder key hpos)
    rw [inheritedBody_of_outDegree hnone, hbody, Option.getD_some]

theorem Ranked.cut (h : s.Ranked) (sets : List (List Key)) :
    Ranked { s with inherits := s.inherits.cut sets } :=
  fun u v hedge => h u v (Digraph.edge_cut_iff.mp hedge).1

/-- The references of the bases of an interface. -/
theorem Clauses.map_snd_heritages (h : s.Clauses) (he : s.graft? key = some e)
    (hkey : e.declaration.key = key) :
    (s.heritages e.declaration).map Prod.snd = s.basesOf key := by
  rw [Harvest.heritages, hkey]
  exact List.map_snd_zip (h.bases key e he).length_eq.ge

/-- The block is written with the bodies after merging. -/
theorem block_of_splice {clean : Cleaning} {spliced : Splice} (hown : s.filledBodies = .ok own)
    (h : s.splice orders clean = .ok (s', spliced)) :
    s'.block (s.absorbParents orders own).2 (s'.blockKeys orders) = .ok spliced.block := by
  rw [Harvest.splice, hown] at h
  dsimp only at h
  split at h
  · exact absurd h (by simp)
  · next block hblock =>
    obtain ⟨rfl, rfl⟩ := Prod.mk.inj (Except.ok.inj h)
    split <;> exact hblock

/-- **What merging rests on.** -/
structure Mergeable (s : Harvest) (orders : Orders) (own : Table Key Bytes) : Prop where
  wellFormed : s.inherits.WellFormed
  once : s.inherits.edges.Nodup
  acyclic : ∀ v, ¬Relation.TransGen s.inherits.Edge v v
  ranked : s.Ranked
  clauses : s.Clauses
  key_eq : ∀ key e, s.graft? key = some e → e.declaration.key = key
  inherits : ∀ u v, s.inherits.Edge u v →
    (∃ e rest, s.graft? u = some e ∧ e.declaration.isInterface = true ∧
      filledBody e = .ok (0x7b :: rest)) ∧
      ∃ e, s.graft? v = some e ∧ e.declaration.hasMembers = true
  absorbOrder : ∀ key, 0 < s.inherits.outDegree key → key ∈ orders.absorbOrder
  bodies : s.filledBodies = .ok own

/-- A search has no edge twice. -/
theorem nodup_edges_of_search (hopened : Opened world s o)
    (h : s.search world o requests external = (s', .ok ())) : s'.inherits.edges.Nodup := by
  refine nodup_inherits (searching_of_search hopened h).2 ?_
  rw [begun_eq hopened.unsearched]
  change s.inherits.edges.Nodup
  rw [show s.inherits = .empty from congrArg Harvest.inherits hopened.unsearched.eq]
  exact List.nodup_nil

/-- When the circles are broken, nothing extends itself any more. -/
theorem mergeable_of_search {found : Harvest} (hsession : ParsedSession world s o requests external)
    (h : s.search world o requests external = (found, .ok ())) :
    ∃ own, found.orders.1.Mergeable found.orders.2 own := by
  have hopened := hsession.session.opened
  have hsited := sited_of_search hsession.session h
  have hbraced : ∀ key e, found.graft? key = some e → e.declaration.hasMembers = true →
      ∃ rest, filledBody e = .ok (0x7b :: rest) := fun _ _ => exists_braced hsession h
  obtain ⟨own, hown⟩ : ∃ own, found.orders.1.filledBodies = .ok own := by
    refine exists_filledBodies fun key e hmem => ?_
    obtain ⟨-, body, hbody, -⟩ := hsited.exists_reads (Table.get?_of_mem hsited.once hmem)
    exact ⟨body, hbody⟩
  have honce := nodup_edges_of_search hopened h
  obtain ⟨-, hchanges⟩ := searching_of_search hopened h
  obtain ⟨last, hsteps, -, rfl⟩ := exists_steps_of_search h
  have hlinked := (hopened.unsearched.linked requests external).changes hchanges
  have hcoherent := coherent_harvest hopened hsteps
  have hg : last.harvest.orders.1.inherits.WellFormed := hlinked.inherits.cut _
  exact ⟨own, {
    wellFormed := hg
    once := honce.filter _
    acyclic := Digraph.not_transGen_cut hlinked.inherits Key.le
    ranked := (ranked_of_steps hopened hsteps).1.cut _
    clauses := (clauses_of_steps hopened hsteps).of_eq rfl rfl rfl
    key_eq := fun key e he => (hcoherent.declared key e he).1
    inherits := by
      intro u v hedge
      obtain ⟨⟨e, he, hinterface⟩, hv⟩ := hcoherent.inherits u v (Digraph.edge_cut_iff.mp hedge).1
      obtain ⟨rest, hrest⟩ := hbraced u e he (Declaration.hasMembers_of_isInterface hinterface)
      exact ⟨⟨e, rest, he, hinterface, hrest⟩, hv⟩
    absorbOrder := fun key => mem_absorbOrder hg rfl
    bodies := hown }⟩

namespace Mergeable

variable (h : s.Mergeable orders own)
include h

/-- **The bases of an interface** follow each other as they are named. -/
theorem siblings (he : s.graft? key = some e) :
    (∀ base, base ∈ s.parentsOf key ↔ s.inherits.Edge key base) ∧ (s.parentsOf key).Nodup ∧
      (s.parentsOf key).Sublist
        ((s.heritages e.declaration).filterMap fun c => s.targetOf c.2) := by
  refine ⟨fun base => mem_parentsOf_iff, ?_, ?_⟩
  · exact (List.mergeSort_perm _ _).nodup_iff.mpr (Digraph.nodup_successors h.once key)
  · have hrefs := h.clauses.map_snd_heritages he (h.key_eq key e he)
    have hsub := sublist_parentsOf h.ranked h.once key
    rw [← hrefs, List.filterMap_map] at hsub
    exact hsub

/-- The body after merging is the one that a declaration inherits, even if it extends nothing. -/
theorem get?_absorbed (he : s.graft? key = some e) :
    (s.absorbParents orders own).2.get? key = some (s.inheritedBody own key) :=
  get?_absorbParents_eq h.absorbOrder (isSome_get?_of_filledBodies h.bodies (by rw [he]; rfl))

theorem takesIn (hkey : 0 < s.inherits.outDegree key) : ∃ merged,
    (s.absorbParents orders own).2.get? key = some merged ∧ s.TakesIn key merged := by
  obtain ⟨base, hedge⟩ := edge_of_outDegree hkey
  obtain ⟨⟨e, rest, he, hinterface, hrest⟩, -⟩ := h.inherits key base hedge
  exact ⟨_, h.get?_absorbed he, takesIn_inheritedBody h.wellFormed h.acyclic h.bodies hedge he
    hinterface hrest fun u v huv => (h.inherits u v huv).2⟩

theorem keeps (he : s.graft? key = some e) (hkey : s.inherits.outDegree key = 0) : ∃ body,
    filledBody e = .ok body ∧ (s.absorbParents orders own).2.get? key = some body := by
  obtain ⟨body, hbody, hown⟩ := get?_of_filledBodies h.bodies he
  refine ⟨body, hbody, ?_⟩
  rw [h.get?_absorbed he, inheritedBody_of_outDegree hkey, hown, Option.getD_some]

/-- **The order does not matter** in which interfaces are merged. -/
theorem anyOrder {order : List Key} (hall : ∀ key ∈ order, (s.graft? key).isSome)
    (horder : ∀ key, 0 < s.inherits.outDegree key → key ∈ order) (key : Key) :
    (s.mergedAlong own order).get? key = (s.absorbParents orders own).2.get? key := by
  rw [get?_mergedAlong]
  split
  · next hmem =>
    obtain ⟨e, he⟩ := Option.isSome_iff_exists.mp (hall key hmem)
    rw [h.get?_absorbed he]
  · next hmem =>
    have hnone := Nat.eq_zero_of_not_pos fun hpos => hmem (horder key hpos)
    cases hbody : own.get? key with
    | none => rw [get?_absorbParents, hbody, Option.map_none]
    | some body =>
      rw [get?_absorbParents_eq h.absorbOrder (by rw [hbody]; rfl),
        inheritedBody_of_outDegree hnone, hbody, Option.getD_some]

end Mergeable

/-- **What merging comes to** in every session. The bodies are those that the block is written
with. -/
theorem merging_of_search {found : Harvest} (hsession : ParsedSession world s o requests external)
    (h : s.search world o requests external = (found, .ok ())) :
    ∃ own, found.orders.1.filledBodies = .ok own ∧
      found.orders.1.Merging found.orders.2 own ∧
      ∀ clean ended spliced, found.orders.1.splice found.orders.2 clean = .ok (ended, spliced) →
        ended.block (found.orders.1.absorbParents found.orders.2 own).2
          (ended.blockKeys found.orders.2) = .ok spliced.block := by
  obtain ⟨own, hmergeable⟩ := mergeable_of_search hsession h
  refine ⟨own, hmergeable.bodies, ?_, fun clean ended spliced hsplice =>
    block_of_splice hmergeable.bodies hsplice⟩
  exact {
    siblings := fun key e he => hmergeable.siblings he
    takesIn := fun key hkey => hmergeable.takesIn hkey
    keeps := fun key e he hkey => hmergeable.keeps he hkey
    anyOrder := fun order hall horder => hmergeable.anyOrder hall horder }

end Harvest

/-! ### Two ways to one base -/

/-- A script with four interfaces: the last one extends two, which extend the first one. -/
def diamond : String :=
  "\ninterface A \x7b a: string \x7d\ninterface B extends A \x7b b: A[] \x7d\n" ++
    "interface C extends A \x7b c: string; \x7d\ninterface D extends C, B \x7b d: string \x7d\n" ++
    "defineProps<D>()\n"

/-- A declaration of the script. -/
def inScript (name : String) : Key := ⟨"/w/App.vue", name⟩

/-- What extends what in the script, with the places in the lists of bases. -/
def Harvest.diamondBases : Harvest :=
  let edges := [("D", "C"), ("D", "B"), ("C", "A"), ("B", "A")].map
    fun e => (inScript e.1, inScript e.2)
  { start false none with
    inherits := ⟨["D", "C", "B", "A"].map inScript, edges⟩
    parentOrder := edges.zip [0, 1, 0, 0] }

/-- The bodies that the interfaces have by themselves. -/
def diamondBodies : Table Key Bytes :=
  [("D", "\x7b d: string \x7d"), ("C", "\x7b c: string; \x7d"), ("B", "\x7b b: A[] \x7d"),
    ("A", "\x7b a: string \x7d")].map fun entry => (inScript entry.1, Bytes.ofString entry.2)

theorem Harvest.ancestors_diamondBases :
    diamondBases.ancestors (inScript "D") = ["A", "C", "B"].map inScript := by
  have hparents := parentsOf_eq_successors (s := diamondBases) (by decide)
  rw [ancestors, show diamondBases.inherits.nodes.length + 1 = 3 + 1 + 1 from rfl]
  simp only [ancestorsFrom, hparents]
  decide +kernel

set_option maxRecDepth 100000 in
/-- The members of the first interface come first, and once. -/
theorem Harvest.merging_of_search_diamond :
    ∃ s o requests found own, Harvest.ParsedSession World.baseModule s o requests false ∧
      s.search World.baseModule o requests false = (found, .ok ()) ∧
      found.orders.1.filledBodies = .ok own ∧
      found.orders.1.ancestors (inScript "D") = ["A", "C", "B"].map inScript ∧
      (found.orders.1.absorbParents found.orders.2 own).2.get? (inScript "D") =
        some (Bytes.ofString "\x7b a: string; c: string;  b: A[]; d: string \x7d") ∧
      found.orders.1.Merging found.orders.2 own := by
  obtain ⟨s, o, requests, found, hsession, hsearch, hexpected⟩ := Harvest.exists_of_sessionComesTo
    (show Harvest.sessionComesTo World.baseModule ["defineProps"] "/w/App.vue"
      (Bytes.ofString diamond) (fun found =>
        decide (found.orders.1.inherits.nodes = diamondBases.inherits.nodes ∧
          found.orders.1.inherits.edges = diamondBases.inherits.edges ∧
          found.orders.1.parentOrder = diamondBases.parentOrder ∧
          inScript "D" ∈ found.orders.2.absorbOrder ∧
          found.orders.1.filledBodies.toOption = some diamondBodies)) = true
      by decide +kernel)
  obtain ⟨hnodes, hedges, hplaces, hmem, hbodies⟩ := of_decide_eq_true hexpected
  obtain ⟨own, hown, hmerging, -⟩ := Harvest.merging_of_search hsession hsearch
  obtain rfl : own = diamondBodies := by
    rw [hown] at hbodies
    exact Option.some.inj hbodies
  have hinherits : found.orders.1.inherits = diamondBases.inherits :=
    (Digraph.mk.injEq _ _ _ _).mpr ⟨hnodes, hedges⟩
  refine ⟨s, o, requests, found, diamondBodies, hsession, hsearch, hown, ?_, ?_, hmerging⟩
  · rw [ancestors_congr hinherits hplaces]
    exact ancestors_diamondBases
  · rw [← absorbParents_congr _ diamondBases _ _ hinherits.symm hplaces.symm, get?_absorbParents,
      show diamondBodies.get? (inScript "D") = some (Bytes.ofString "\x7b d: string \x7d") by
        decide +kernel, Option.map_some, if_pos hmem, inheritedBody, ancestors_diamondBases]
    decide +kernel

end TypeGraft
