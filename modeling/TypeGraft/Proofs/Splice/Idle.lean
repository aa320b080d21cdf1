import TypeGraft.Proofs.Resolution.Own
import TypeGraft.Proofs.Splice.Hoisting

/-!
# Interfaces that are cleaned away

When interfaces are cleaned, the script may lose one that the block does not have: an interface that
nothing asks for or uses, and that is only there to be merged into others
(`TypeGraft.Harvest.Discarded`).

**What was taken in** does not miss it. Each name that stands where it is declared is bound to that
declaration (`TypeGraft.Harvest.targetOf_of_declares`). So a declaration that names the interface
either uses it, and then it is not cleaned away, or extends it. If no circle was broken, the latter
has taken in its members and is in the block, or is cleaned away in turn.

**What was not taken in** is not looked at. Nobody misses the interface
(`TypeGraft.Harvest.Unmissed`) exactly if no such declaration of the script names it
(`TypeGraft.Harvest.discarded_of_session`). There are scripts in which one does
(`TypeGraft.exists_missed`).
-/

namespace TypeGraft

open Syntax

/-- **A statement is taken away** by an edit. -/
def Splice.Removes (spliced : Splice) (a : Span) : Prop :=
  ∃ x ∈ spliced.edits, x.text = "" ∧ x.span.contains a = true

/-- **A declaration names another**: in a type of its properties, in its value or in its bases, and
not as a parameter of its own. -/
def Outline.Mentions (o : Outline) (d : Declaration) (name : String) : Prop :=
  ∃ m ∈ d.freeMentions o.source, m.name = name

instance (spliced : Splice) (a : Span) : Decidable (spliced.Removes a) :=
  inferInstanceAs (Decidable (∃ x ∈ spliced.edits, x.text = "" ∧ x.span.contains a = true))

instance (o : Outline) (d : Declaration) (name : String) : Decidable (o.Mentions d name) :=
  inferInstanceAs (Decidable (∃ m ∈ d.freeMentions o.source, m.name = name))

theorem Outline.WellFormed.answer_inside {o : Outline} (hw : o.WellFormed) {name : String}
    {d : Declaration} (hd : o.declarations.get? name = some d) :
    o.answer name false = .declared d ∧ d.key = ⟨o.path, name⟩ := by
  refine ⟨?_, hw name d hd⟩
  rw [Outline.answer, if_neg (by simp), Outline.ownAnswer, hd]

/-- An enumeration names nothing. -/
theorem Outline.Mentions.isEnumeration {o : Outline} {d : Declaration} {name : String}
    (h : o.Mentions d name) : d.isEnumeration = false := by
  obtain ⟨m, hm, -⟩ := h
  have hm := (List.mem_filter.mp hm).1
  unfold Declaration.mentions at hm
  unfold Declaration.isEnumeration
  split at hm
  · next hshape => rw [hshape]
  · next hshape => rw [hshape]
  · exact absurd hm List.not_mem_nil

theorem Declaration.isEnumeration_of_isInterface {d : Declaration} (h : d.isInterface = true) :
    d.isEnumeration = false := by
  unfold Declaration.isInterface at h
  unfold Declaration.isEnumeration
  split at h
  · next hshape => rw [hshape]
  · exact absurd h (by simp)

namespace Harvest

variable {world : World} {s s' : Harvest} {o : Outline} {requests : List RootRequest} {key : Key}
  {e : Graft} {orders : Orders} {clean : Cleaning} {spliced : Splice} {name : String}
  {d : Declaration}

/-! ### Names of the script -/

/-- **A name of the script** that is asked for, or that stands in something that was taken in, is
bound to what the script declares under it. -/
theorem Follows.exists_bound (hopened : Opened world s o)
    (h : s.searchAndSplice world o requests false clean = (s', .ok (orders, spliced)))
    {use : Reference} (huse : s'.Follows o requests use)
    (hd : o.declarations.get? use.name = some d) :
    ∃ ref r, s'.reference? ref = some r ∧ r.bare = use ∧ r.target = some ⟨o.path, use.name⟩ := by
  obtain ⟨ref, r, hr, hbare⟩ := exists_of_follows hopened h huse
  refine ⟨ref, r, hr, hbare, ?_⟩
  obtain ⟨found, own, hfound, harrayed, -⟩ := arrayed_of_searchAndSplice hopened h
  have hunsearched := hopened.unsearched
  have hfile : use.file = o.path := by
    cases huse with
    | request huse => exact (of_mem_rootReferences huse).2.2.2
    | mention he hfile huse =>
      rw [(of_mem_mentioned huse).2.2.2, harrayed.key_eq he]
      exact hfile
  obtain ⟨hanswer, hkey⟩ := hunsearched.wellFormed.answer_inside hd
  have horigin : r.origin false = ⟨o.path, use.name, false⟩ := by
    rw [← hbare] at hfile ⊢
    rw [Reference.origin, Bool.false_and]
    exact congrArg (Waypoint.mk · r.name false) hfile
  have hdeclares : Declares (s.sources world) (r.origin false) ⟨o.path, use.name⟩ := by
    rw [horigin]
    exact ⟨o, d, sources_of_get? hunsearched.file, hanswer, hkey⟩
  have hr' : found.reference? ref = some r := by
    rw [reference?, ← harrayed.references]
    exact hr
  rw [← targetOf_of_reference? hr']
  exact targetOf_of_declares hopened hfound hr' hdeclares

/-! ### What is taken away -/

namespace Spliced

variable (h : s.Spliced o requests orders clean spliced)
include h

/-- What is taken away goes into the block, or is cleaned away. -/
theorem removes_iff (hown : s.Own key e) : spliced.Removes e.declaration.statement ↔
    key ∈ s.idleInterfaces orders clean ∨ key ∈ s.blockKeys orders := by
  constructor
  · rintro ⟨x, hx, -, hcontains⟩
    by_contra hkept
    obtain ⟨hidle, hblock⟩ := not_or.mp hkept
    rw [(h.remains hown hidle hblock).place x hx] at hcontains
    exact absurd hcontains (by simp)
  · intro hgone
    obtain ⟨hlaid, -, hperm⟩ := h.touching hown
    rw [hown.editsOf_of_erased hgone, List.perm_singleton] at hperm
    have hmem : erasure clean o.source e.declaration.statement ∈
        spliced.touching e.declaration.statement := by
      rw [hperm]
      exact List.mem_singleton_self _
    exact ⟨_, (List.mem_filter.mp hmem).1, rfl, (in_erasure hlaid.statement clean).contains⟩

/-- What is taken away was taken in. -/
theorem exists_own (hd : o.declarations.get? name = some d) (hplain : d.isEnumeration = false)
    (hremoved : spliced.Removes d.statement) :
    ∃ e, s.Own ⟨o.path, name⟩ e ∧ e.declaration = d := by
  obtain ⟨x, hx, -, hcontains⟩ := hremoved
  obtain ⟨stmts, hstmts⟩ := h.statements
  have hlaid := hstmts.spaced.laid _ _ hd
  rw [h.edits] at hx
  rcases h.sited.mem_editsOf_or_apart h.clauses h.entry h.file hstmts hd hx with
    ⟨e, he, -⟩ | hapart
  · obtain ⟨hdeclared, hkey⟩ := h.sited.declared _ e he
    rw [declaration?, h.file, Option.bind_some, hd] at hdeclared
    obtain rfl := Option.some.inj hdeclared
    refine ⟨e, ⟨he, hkey, ?_, hplain⟩, rfl⟩
    rw [isEntryFile, h.entry, beq_self_eq_true]
  · have hoverlaps := Span.overlaps_of_contains hcontains
      (start_lt_stop hlaid (h.opened _ _ hd) hplain)
    rw [hapart.not_overlaps] at hoverlaps
    exact absurd hoverlaps (by simp)

theorem mem_emitted_iff (hown : s.Own key e) :
    key.name ∈ spliced.emitted ↔ key ∈ s.blockKeys orders := by
  rw [h.emitted, ← h.named.own key e hown.graft hown.entry hown.plain]
  exact h.named.mem_emitted_iff hown.graft

/-- **What is taken away and not in the block** is cleaned away. -/
theorem exists_idle (hd : o.declarations.get? name = some d) (hplain : d.isEnumeration = false)
    (hremoved : spliced.Removes d.statement) (hemitted : name ∉ spliced.emitted) :
    ∃ e, s.Own ⟨o.path, name⟩ e ∧ e.declaration = d ∧
      (⟨o.path, name⟩ : Key) ∈ s.idleInterfaces orders clean := by
  obtain ⟨e, hown, rfl⟩ := h.exists_own hd hplain hremoved
  refine ⟨e, hown, rfl, ((h.removes_iff hown).mp hremoved).resolve_right fun hblock => ?_⟩
  exact hemitted ((h.mem_emitted_iff hown).mpr hblock)

end Spliced

/-! ### Who names it -/

/-- An interface that is listed and extends something goes into the block. -/
theorem mem_blockKeys_of_inherits {base : Key} (he : s.graft? key = some e)
    (hkey : e.declaration.key = key) (hinterface : e.declaration.isInterface = true)
    (hedge : s.inherits.Edge key base) (hlisted : key ∈ orders.blockOrder) :
    key ∈ s.blockKeys orders := by
  have hplaced : key ∈ s.blockKeys orders ∨ s.InPlace orders .none key :=
    placed hlisted (by rw [he]; rfl)
  rcases hplaced with hblock | ⟨e', he', hstays, -⟩
  · exact hblock
  · obtain rfl := Option.some.inj (he.symm.trans he')
    rw [stays, Bool.and_eq_true, Bool.and_eq_true, Bool.not_eq_true', Bool.not_eq_true'] at hstays
    obtain ⟨⟨hentry, hplain⟩, hmoved⟩ := hstays
    have hown : s.Own key e := ⟨he, hkey, hkey ▸ hentry, hplain⟩
    have hbases : 0 < s.inherits.outDegree key :=
      List.length_pos_of_mem (Digraph.mem_successors_iff.mpr hedge)
    rw [hown.moved_iff.mpr ⟨hinterface, hlisted, hbases⟩] at hmoved
    exact absurd hmoved (by simp)

/-- What extends something is an interface. -/
theorem isInterface_of_inherits {external : Bool} (hopened : Opened world s o)
    (h : s.searchAndSplice world o requests external clean = (s', .ok (orders, spliced)))
    {derived base : Key} (hedge : s'.inherits.Edge derived base) :
    ∃ e, s'.graft? derived = some e ∧ e.declaration.key = derived ∧
      e.declaration.isInterface = true := by
  obtain ⟨found, own, hfound, harrayed, -⟩ := arrayed_of_searchAndSplice hopened h
  obtain ⟨last, hsteps, -, rfl⟩ := exists_steps_of_search hfound
  rw [harrayed.inherits, Digraph.edge_cut_iff] at hedge
  obtain ⟨e, he, hinterface⟩ := ((coherent_harvest hopened hsteps).inherits _ _ hedge.1).1
  obtain ⟨e', he', hd, -⟩ := harrayed.keeps.graft he
  exact ⟨e', he', harrayed.key_eq he', hd ▸ hinterface⟩

/-- If no circle was broken, a base that was found is one that is extended. -/
theorem edge_of_bound {external : Bool} (hopened : Opened world s o)
    (h : s.searchAndSplice world o requests external clean = (s', .ok (orders, spliced)))
    (hcircles : orders.circles = []) {ref : RefId} {r : Reference} {owner : Key}
    (hr : s'.reference? ref = some r) (howner : r.owner = some owner)
    (htarget : r.target = some key) (hkept : s'.isLeftOut r key = false)
    (hbase : r.kind = .extends_ ∧ s'.hasMembers key = true) : s'.inherits.Edge owner key := by
  obtain ⟨found, own, hfound, harrayed, -⟩ := arrayed_of_searchAndSplice hopened h
  obtain ⟨found', hfound', hsame, -⟩ := exists_search_of_searchAndSplice h
  obtain rfl : found = found' := (Prod.mk.inj (hfound.symm.trans hfound')).1
  have hr' : found.reference? ref = some r := by
    rw [reference?, ← harrayed.references]
    exact hr
  rw [harrayed.keeps.isLeftOut] at hkept
  rcases harrayed.linked.target ref r key hr' htarget with ⟨d, hd, hleft⟩ | ⟨e, he, -, hedge⟩
  · rw [isLeftOut, hd] at hkept
    exact absurd (hleft.symm.trans hkept) (by simp)
  · rw [harrayed.hasMembers_iff, hasMembers, he] at hbase
    have hedge := hedge owner howner
    have hmembers : e.declaration.hasMembers = true := hbase.2
    rw [if_pos ⟨hbase.1, hmembers⟩] at hedge
    rw [harrayed.inherits, Digraph.edge_cut_iff]
    refine ⟨hedge, fun circle hcircle => ?_⟩
    have hnone : found.inherits.circles Key.le 1 = [] :=
      (congrArg Orders.circles hsame).trans hcircles
    rw [hnone] at hcircle
    exact absurd hcircle List.not_mem_nil

/-- **An interface of the script that is not listed** is only there to be merged, if no circle was
broken: it was taken in because something extends it. -/
theorem mem_idleInterfaces_of_not_mem {external : Bool} (hopened : Opened world s o)
    (h : s.searchAndSplice world o requests external clean = (s', .ok (orders, spliced)))
    (hcircles : orders.circles = []) (hcleaning : clean.interfaces = true) (hown : s'.Own key e)
    (hinterface : e.declaration.isInterface = true) (hlisted : key ∉ orders.blockOrder) :
    key ∈ s'.idleInterfaces orders clean := by
  have harranged := arranged_of_searchAndSplice hopened h
  have hneeded : ∀ k, (s'.graft? k).isSome → s'.Needed k := fun k =>
    needed_of_searchAndSplice hopened h hcircles
  refine mem_idleInterfaces_iff.mpr ⟨hcleaning, e, Table.mem_of_get? hown.graft, ?_, hinterface,
    hlisted, fun hrequested => hlisted (harranged.mem_blockOrder_of_requested hrequested), ?_, ?_⟩
  · rw [hown.stays_eq, Bool.not_eq_true', Bool.eq_false_iff, Ne, hown.moved_iff]
    exact fun hmoved => hlisted hmoved.2.1
  · obtain ⟨derived, hderived, hpath⟩ :=
      harranged.exists_derived (hneeded key (by rw [hown.graft]; rfl))
    obtain ⟨owner, -, hedge⟩ := (Relation.ReflTransGen.cases_tail hpath).resolve_left
      fun heq => hlisted (heq ▸ hderived)
    exact List.length_pos_of_mem (List.mem_filter.mpr ⟨hedge, decide_eq_true rfl⟩)
  · refine List.length_eq_zero_iff.mpr (List.filter_eq_nil_iff.mpr ?_)
    rintro ⟨owner, used⟩ huse hused
    obtain rfl : used = key := of_decide_eq_true hused
    have howner := (harranged.nodes owner).mp (harranged.dependencies.left _ _ huse)
    exact hlisted (harranged.mem_blockOrder_iff_needed.mpr
      (Or.inr ⟨owner, hneeded owner howner, huse⟩))

/-- **An interface that nobody misses** when it is taken away. -/
structure Unmissed (s : Harvest) (o : Outline) (requests : List RootRequest) (orders : Orders)
    (spliced : Splice) (name : String) : Prop where
  /-- An interface of the block has its members. -/
  merged : ∃ derived e, s.graft? derived = some e ∧ e.declaration.isInterface = true ∧
    derived ∈ s.blockKeys orders ∧ ⟨o.path, name⟩ ∈ s.ancestors derived
  unrequested : ∀ request ∈ requests, request.name ≠ name
  /-- Nothing in the block names it. -/
  unshown : ∀ derived ∈ s.blockKeys orders, ∀ ref r, s.reference? ref = some r →
    s.Shows derived r → r.target ≠ some ⟨o.path, name⟩
  /-- No declaration that the script keeps names it. -/
  unmentioned : ∀ other d, o.declarations.get? other = some d → o.Mentions d name →
    spliced.Removes d.statement

/-- **What is known of an interface that is cleaned away.** -/
structure Discarded (s : Harvest) (o : Outline) (requests : List RootRequest) (orders : Orders)
    (clean : Cleaning) (spliced : Splice) (name : String) : Prop where
  cleaning : clean.interfaces = true
  /-- Something that was taken in extends it. -/
  extended : ∃ derived e, s.graft? derived = some e ∧ e.declaration.isInterface = true ∧
    s.inherits.Edge derived ⟨o.path, name⟩
  unrequested : ∀ request ∈ requests, request.name ≠ name
  unshown : ∀ derived ∈ s.blockKeys orders, ∀ ref r, s.reference? ref = some r →
    s.Shows derived r → r.target ≠ some ⟨o.path, name⟩
  /-- What was taken in names it only as a base. -/
  based : ∀ other e, s.graft? ⟨o.path, other⟩ = some e →
    ∀ m ∈ e.declaration.freeMentions o.source, m.name = name → m.kind = .extends_

section Idle

variable (hsession : ParsedSession world s o requests false)
  (h : s.searchAndSplice world o requests false clean = (s', .ok (orders, spliced)))
  (hown : s'.Own key e) (hidle : key ∈ s'.idleInterfaces orders clean)
include hsession h hown hidle

/-- **What names it** is an interface that extends it. -/
theorem based_of_idle {ref : RefId} {r : Reference} (hr : s'.reference? ref = some r)
    (htarget : r.target = some key) : s'.isLeftOut r key = false ∧
      (∃ owner, r.owner = some owner) ∧ r.kind = .extends_ ∧ s'.hasMembers key = true := by
  have harranged := arranged_of_searchAndSplice hsession.session.opened h
  have hspliced := spliced_of_session hsession h hown.entry
  obtain ⟨-, -, -, -, -, -, hunrequested, -⟩ := mem_idleInterfaces_iff.mp hidle
  have hkept : s'.leavesOut r e.declaration = false := by
    rw [leavesOut, hown.entryFile, Bool.not_true, Bool.and_false]
  have hdeclared := (hspliced.sited.declared key e hown.graft).1
  have hbinds : s'.Binds r key := by
    refine ⟨htarget, fun d hd => ?_⟩
    rw [← Option.some.inj (hdeclared.symm.trans hd)]
    exact hkept
  have howner : ∃ owner, r.owner = some owner := by
    refine owned_of_searchAndSplice hsession.session.opened h ref r hr fun hroot => hunrequested ?_
    exact mem_requestedKeys_iff.mpr ⟨ref, hroot, (targetOf_of_reference? hr).trans htarget⟩
  refine ⟨by rw [isLeftOut, hdeclared]; exact hkept, howner, ?_⟩
  by_contra hkind
  obtain ⟨owner, howner⟩ := howner
  exact not_mem_idleInterfaces_of_edge ((harranged.bound ref r key hr hbinds).2 owner howner hkind)
    hidle

theorem discarded_of_idle : s'.Discarded o requests orders clean spliced key.name := by
  have hopened := hsession.session.opened
  have hspliced := spliced_of_session hsession h hown.entry
  obtain ⟨hkey, hdeclared⟩ := hown.declared hspliced.sited hspliced.entry hspliced.file
  obtain ⟨hcleaning, -, -, -, -, -, -, hextended, -⟩ := mem_idleInterfaces_iff.mp hidle
  -- a use of the name is a base that something extends
  have hbound : ∀ use, s'.Follows o requests use → use.name = key.name →
      (∃ owner, use.owner = some owner) ∧ use.kind = .extends_ := by
    intro use huse hname
    obtain ⟨ref, r, hr, rfl, htarget⟩ := huse.exists_bound hopened h (hname ▸ hdeclared)
    rw [hname, ← hkey] at htarget
    obtain ⟨-, howner, hkind, -⟩ := based_of_idle hsession h hown hidle hr htarget
    exact ⟨howner, hkind⟩
  refine ⟨hcleaning, ?_, ?_, ?_, ?_⟩
  · obtain ⟨⟨derived, base⟩, hedge⟩ := List.exists_mem_of_length_pos hextended
    obtain ⟨hedge, hbase⟩ := List.mem_filter.mp hedge
    have hbase : base = key := of_decide_eq_true hbase
    rw [hbase] at hedge
    obtain ⟨e', he', -, hinterface⟩ := isInterface_of_inherits hopened h hedge
    exact ⟨derived, e', he', hinterface, hkey ▸ hedge⟩
  · intro request hrequest hname
    obtain ⟨⟨owner, howner⟩, -⟩ := hbound _ (.request (List.mem_map_of_mem hrequest)) hname
    exact absurd howner (by simp [Reference.ofRequest])
  · rintro derived - ref r hr ⟨owner, -, -, hshown⟩ htarget
    rw [← hkey] at htarget
    obtain ⟨-, -, hkind, hmembers⟩ := based_of_idle hsession h hown hidle hr htarget
    refine hshown ⟨hkind, ?_⟩
    rw [htarget]
    exact hmembers
  · intro other e' he' m hm hname
    exact (hbound _ (.mention he' rfl (List.mem_map_of_mem hm)) hname).2

section Uncut

variable (hcircles : orders.circles = [])
include hcircles

/-- **An interface of the block has its members**, if no circle was broken. -/
theorem exists_merged_of_idle : ∃ derived e, s'.graft? derived = some e ∧
    e.declaration.isInterface = true ∧ derived ∈ s'.blockKeys orders ∧
    key ∈ s'.ancestors derived := by
  have harranged := arranged_of_searchAndSplice hsession.session.opened h
  obtain ⟨-, -, -, -, -, hunlisted, -⟩ := mem_idleInterfaces_iff.mp hidle
  have hneeded : s'.Needed key :=
    needed_of_searchAndSplice hsession.session.opened h hcircles (by rw [hown.graft]; rfl)
  obtain ⟨derived, hlisted, hpath⟩ := harranged.exists_derived hneeded
  have hne : key ≠ derived := by
    rintro rfl
    exact hunlisted hlisted
  obtain ⟨base, hedge, -⟩ := (Relation.ReflTransGen.cases_head hpath).resolve_left hne.symm
  obtain ⟨e', he', hkey, hinterface⟩ := isInterface_of_inherits hsession.session.opened h hedge
  exact ⟨derived, e', he', hinterface, mem_blockKeys_of_inherits he' hkey hinterface hedge hlisted,
    (mem_ancestors_iff harranged.inherits).mpr ⟨hpath, hne⟩⟩

/-- What names it extends it. -/
theorem edge_of_mention {other : Key} {e' : Graft} (hother : s'.Own other e')
    (hmentions : o.Mentions e'.declaration key.name) : s'.inherits.Edge other key := by
  have hspliced := spliced_of_session hsession h hown.entry
  obtain ⟨hkey, hdeclared⟩ := hown.declared hspliced.sited hspliced.entry hspliced.file
  obtain ⟨hkey', -⟩ := hother.declared hspliced.sited hspliced.entry hspliced.file
  obtain ⟨m, hm, hname⟩ := hmentions
  have hfollows : s'.Follows o requests _ :=
    .mention hother.graft (congrArg Key.file hkey') (List.mem_map_of_mem hm)
  obtain ⟨ref, r, hr, hbare, htarget⟩ := hfollows.exists_bound hsession.session.opened h
    (d := e.declaration) (by rw [← hdeclared, ← hname]; rfl)
  have htarget : r.target = some key := by
    rw [htarget, hkey, ← hname]
    rfl
  have howner : r.owner = some other := by
    rw [← hother.key_eq]
    exact congrArg Reference.owner hbare
  obtain ⟨hkept, -, hbase⟩ := based_of_idle hsession h hown hidle hr htarget
  exact edge_of_bound hsession.session.opened h hcircles hr howner htarget hkept hbase

/-- **What extends it** is taken away as well, if no circle was broken. -/
theorem removes_of_mention {other : Key} {e' : Graft} (hother : s'.Own other e')
    (hmentions : o.Mentions e'.declaration key.name) :
    spliced.Removes e'.declaration.statement := by
  have hopened := hsession.session.opened
  have hspliced := spliced_of_session hsession h hown.entry
  obtain ⟨hcleaning, -⟩ := mem_idleInterfaces_iff.mp hidle
  have hedge := edge_of_mention hsession h hown hidle hcircles hother hmentions
  obtain ⟨e₁, he₁, -, hinterface⟩ := isInterface_of_inherits hopened h hedge
  obtain rfl := Option.some.inj (hother.graft.symm.trans he₁)
  rw [hspliced.removes_iff hother]
  by_cases hlisted : other ∈ orders.blockOrder
  · exact Or.inr (mem_blockKeys_of_inherits hother.graft hother.key_eq hinterface hedge hlisted)
  · exact Or.inl (mem_idleInterfaces_of_not_mem hopened h hcircles hcleaning hother hinterface
      hlisted)

end Uncut

end Idle

/-- **An interface that is taken away and not in the block** is one that nothing asks for or uses,
and that something extends. If no circle was broken, an interface of the block has its members, and
nobody misses it exactly if each declaration of the script that names it was taken in. -/
theorem discarded_of_session (hsession : ParsedSession world s o requests false)
    (h : s.searchAndSplice world o requests false clean = (s', .ok (orders, spliced)))
    (hentry : s'.isEntryFile o.path = true) (hd : o.declarations.get? name = some d)
    (hinterface : d.isInterface = true) (hremoved : spliced.Removes d.statement)
    (hemitted : name ∉ spliced.emitted) :
    s'.Discarded o requests orders clean spliced name ∧
    (orders.circles = [] → (s'.Unmissed o requests orders spliced name ↔
      ∀ other d', o.declarations.get? other = some d' → o.Mentions d' name →
        (s'.graft? ⟨o.path, other⟩).isSome)) := by
  have hspliced := spliced_of_session hsession h hentry
  obtain ⟨e, hown, rfl, hidle⟩ := hspliced.exists_idle hd
    (Declaration.isEnumeration_of_isInterface hinterface) hremoved hemitted
  have hdiscarded := discarded_of_idle hsession h hown hidle
  refine ⟨hdiscarded, fun hcircles => ⟨fun hunmissed other d' hd' hmentions => ?_,
    fun hall => ⟨?_, hdiscarded.unrequested, hdiscarded.unshown,
      fun other d' hd' hmentions => ?_⟩⟩⟩
  · obtain ⟨e', hown', -⟩ := hspliced.exists_own hd' hmentions.isEnumeration
      (hunmissed.unmentioned other d' hd' hmentions)
    rw [hown'.graft]
    rfl
  · exact exists_merged_of_idle hsession h hown hidle hcircles
  · obtain ⟨e', he'⟩ := Option.isSome_iff_exists.mp (hall other d' hd' hmentions)
    obtain ⟨hdeclared, hkey⟩ := hspliced.sited.declared _ e' he'
    rw [declaration?, hspliced.file, Option.bind_some, hd'] at hdeclared
    obtain rfl := Option.some.inj hdeclared
    exact removes_of_mention hsession h hown hidle hcircles
      ⟨he', hkey, hentry, hmentions.isEnumeration⟩ hmentions

end Harvest

open Harvest

/-- **The interfaces that are cleaned away.** When types are inlined without an error, the component
is left as it is, or its script is spliced. Then each interface that the script loses and the block
does not have is one that nothing asks for or uses, and that something extends. If no circle was
broken, an interface of the block has its members, and nobody misses it exactly if each declaration
of the script that names it was taken in. -/
theorem discarded_of_inlineTypes {world : World} {project : Project} {strict : Bool}
    {path code : String} {inlined : Inlined}
    (h : (inlineTypes world project strict path code).outcome = .ok inlined)
    (herror : inlined.error = none) :
    inlined = .unchanged code none ∨ ∃ run : Inlining world project strict path code,
      run.result = inlined ∧
      ∀ name d, run.outline.declarations.get? name = some d → d.isInterface = true →
        run.splice.Removes d.statement → name ∉ inlined.emitted →
        run.ended.Discarded run.outline run.script.rootRequests run.orders project.cleaning
          run.splice name ∧
        (inlined.cycles = [] →
          (run.ended.Unmissed run.outline run.script.rootRequests run.orders run.splice name ↔
            ∀ other d', run.outline.declarations.get? other = some d' →
              run.outline.Mentions d' name →
                (run.ended.graft? ⟨run.outline.path, other⟩).isSome)) := by
  rcases eq_unchanged_or_exists_inlining h herror with hsame | ⟨run, rfl⟩
  · exact Or.inl hsame
  · refine Or.inr ⟨run, rfl, fun name d hd hinterface hremoved hemitted => ?_⟩
    obtain ⟨hopened, hentry, -, -⟩ := SetupScript.opened world run.opens
    have hentry' : run.ended.isEntryFile run.outline.path = true := by
      rw [isEntryFile, (entry_of_searchAndSplice hopened hentry run.ends).1, beq_self_eq_true]
    obtain ⟨hdiscarded, hiff⟩ :=
      discarded_of_session run.session run.ends hentry' hd hinterface hremoved hemitted
    exact ⟨hdiscarded, fun hcycles => hiff (List.map_eq_nil_iff.mp hcycles)⟩

/-! ### Where an interface is missed -/

/-- The standard project, with interfaces cleaned away. -/
def Project.tidy : Project := Project.standard.withCleaning none (some true)

/-- A script with an interface that is merged into another one, and that into the one that is asked
for. -/
def mergedTwice : String :=
  "\ninterface Extra \x7b e: string \x7d\ninterface Mid extends Extra \x7b m: string \x7d\n" ++
    "interface Props extends Mid \x7b f: string \x7d\ndefineProps<Props>()\n"

/-- A script with an interface that is merged into the one that is asked for, and is used by another
one. -/
def usedAside : String :=
  "\ninterface Extra \x7b e: string \x7d\ninterface Props extends Extra \x7b f: string \x7d\n" ++
    "interface Other \x7b x: Extra[] \x7d\ndefineProps<Props>()\n"

set_option maxRecDepth 100000 in
/-- Both interfaces go, and nobody misses them. -/
theorem discarded_of_inlineTypes_mergedTwice :
    ∃ run : Inlining World.oneAlias .tidy false "/w/App.vue" (componentOf mergedTwice),
      (inlineTypes World.oneAlias .tidy false "/w/App.vue"
        (componentOf mergedTwice)).outcome = .ok run.result ∧
      run.result.error = none ∧ run.result.cycles = [] ∧ run.result.emitted = ["Props"] ∧
      ∀ name ∈ ["Extra", "Mid"], (∃ d, run.outline.declarations.get? name = some d ∧
        d.isInterface = true ∧ run.splice.Removes d.statement) ∧ name ∉ run.result.emitted ∧
        run.ended.Unmissed run.outline run.script.rootRequests run.orders run.splice name := by
  have helement : ScriptElement.setup? (componentOf mergedTwice) =
      some (elementOf mergedTwice) :=
    ScriptElement.setup?_componentOf (by decide +kernel)
  obtain ⟨run, hexpected, hall⟩ := Inlining.exists_of_comesTo helement
    (show Inlining.comesTo World.oneAlias .tidy false "/w/App.vue" (componentOf mergedTwice)
      (elementOf mergedTwice) (fun _ o s orders spliced _ =>
        decide (s.logUnbound.circleNames orders = [] ∧ spliced.emitted = ["Props"] ∧
          (∀ entry ∈ o.declarations, (s.graft? ⟨o.path, entry.1⟩).isSome = true) ∧
          ∀ name ∈ ["Extra", "Mid"], (o.declarations.get? name).any fun d =>
            d.isInterface && decide (spliced.Removes d.statement))) = true by
      decide +kernel)
  obtain ⟨hcycles, hemitted, htaken, hremoved⟩ := of_decide_eq_true hexpected
  refine ⟨run, run.outcome_eq, rfl, hcycles, hemitted, fun name hname => ?_⟩
  obtain ⟨d, hd, hinterface⟩ := (Option.any_eq_true _ _).mp (hremoved name hname)
  rw [Bool.and_eq_true, decide_eq_true_eq] at hinterface
  have habsent : name ∉ run.result.emitted := by
    rw [show run.result.emitted = _ from hemitted]
    exact (by decide : ∀ name ∈ ["Extra", "Mid"], name ∉ ["Props"]) name hname
  refine ⟨⟨d, hd, hinterface⟩, habsent, ?_⟩
  rcases discarded_of_inlineTypes run.outcome_eq rfl with hsame | ⟨run', -, hdiscarded⟩
  · have hnone : run.result.emitted = [] := congrArg Inlined.emitted hsame
    exact absurd (hemitted.symm.trans hnone) (by simp)
  · obtain rfl := hall run'
    refine ((hdiscarded name d hd hinterface.1 hinterface.2 habsent).2 hcycles).mpr ?_
    exact fun other d' hd' _ => htaken (other, d') (Table.mem_of_get? hd')

set_option maxRecDepth 100000 in
/-- **An interface may be missed**: one goes that another interface of the script uses, which stays
as it is, since nothing that is asked for led to it. -/
theorem exists_missed :
    ∃ run : Inlining World.oneAlias .tidy false "/w/App.vue" (componentOf usedAside),
      (inlineTypes World.oneAlias .tidy false "/w/App.vue"
        (componentOf usedAside)).outcome = .ok run.result ∧
      run.result.error = none ∧ run.result.cycles = [] ∧ run.result.emitted = ["Props"] ∧
      (∃ d, run.outline.declarations.get? "Extra" = some d ∧ d.isInterface = true ∧
        run.splice.Removes d.statement) ∧
      (∃ d, run.outline.declarations.get? "Other" = some d ∧ run.outline.Mentions d "Extra" ∧
        ¬run.splice.Removes d.statement) ∧
      ¬run.ended.Unmissed run.outline run.script.rootRequests run.orders run.splice "Extra" := by
  have helement : ScriptElement.setup? (componentOf usedAside) = some (elementOf usedAside) :=
    ScriptElement.setup?_componentOf (by decide +kernel)
  obtain ⟨run, hexpected, -⟩ := Inlining.exists_of_comesTo helement
    (show Inlining.comesTo World.oneAlias .tidy false "/w/App.vue" (componentOf usedAside)
      (elementOf usedAside) (fun _ o s orders spliced _ =>
        decide (s.logUnbound.circleNames orders = [] ∧ spliced.emitted = ["Props"]) &&
        (o.declarations.get? "Extra").any (fun d =>
          d.isInterface && decide (spliced.Removes d.statement)) &&
        (o.declarations.get? "Other").any fun d =>
          decide (o.Mentions d "Extra" ∧ ¬spliced.Removes d.statement)) = true by
      decide +kernel)
  rw [Bool.and_eq_true, Bool.and_eq_true] at hexpected
  obtain ⟨⟨hexpected, hextra⟩, hother⟩ := hexpected
  obtain ⟨hcycles, hemitted⟩ := of_decide_eq_true hexpected
  obtain ⟨d, hd, hextra⟩ := (Option.any_eq_true _ _).mp hextra
  obtain ⟨hinterface, hremoved⟩ := Bool.and_eq_true_iff.mp hextra
  obtain ⟨d', hd', hother⟩ := (Option.any_eq_true _ _).mp hother
  obtain ⟨hmentions, hkept⟩ := of_decide_eq_true hother
  refine ⟨run, run.outcome_eq, rfl, hcycles, hemitted,
    ⟨d, hd, hinterface, of_decide_eq_true hremoved⟩, ⟨d', hd', hmentions, hkept⟩,
    fun hunmissed => ?_⟩
  exact hkept (hunmissed.unmentioned "Other" d' hd' hmentions)

end TypeGraft
