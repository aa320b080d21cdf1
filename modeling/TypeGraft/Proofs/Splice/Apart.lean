import TypeGraft.Proofs.Splice.Bodies

/-!
# Edits do not meet

What is written into the slots of a declaration, and all that is changed in the entry script, can be
made at once: no two of the spans share a position (`TypeGraft.Harvest.edits_of_session`).

* Two texts in slots stand in the slots of two references, and those of one declaration stand one
  behind the other. A base that is renamed because its declaration went into the block has members,
  so nothing is written for its reference.
* An edit lies in one statement, or in the line break behind it if that statement is removed, and no
  other statement starts with a line break. A statement that makes a request declares no type and
  imports nothing.
-/

namespace TypeGraft

open Syntax

namespace Harvest

variable {world : World} {s s' : Harvest} {o : Outline} {requests : List RootRequest}
  {external : Bool} {key : Key} {e : Graft} {orders : Orders} {clean : Cleaning}

/-! ### The names of bases -/

/-- **The bases that are renamed** are some of those that the declaration extends, in their order,
and have members. -/
theorem renamedParents_spec (s : Harvest) (inBlock : List Key) (d : Declaration) :
    ((s.renamedParents inBlock d).map (·.span)).Sublist ((s.heritages d).map (·.1.slot)) ∧
      ∀ y ∈ s.renamedParents inBlock d, ∃ clause ∈ s.heritages d, y.span = clause.1.slot ∧
        ∃ target, s.targetOf clause.2 = some target ∧ s.hasMembers target = true := by
  let foreign? (clause : Heritage × RefId) : Option (Heritage × Key × Bool) :=
    (s.targetOf clause.2).bind fun key =>
      if !s.isEntryFile key.file && s.hasMembers key then
        some (clause.1, key, inBlock.contains key)
      else none
  let renamed? (parent : Heritage × Key × Bool) : Option Replacement :=
    if parent.2.2 && s.newNameOf parent.2.1 != parent.1.name then
      some ⟨parent.1.slot, s.newNameOf parent.2.1⟩
    else none
  have hforeign : ∀ clause ∈ s.heritages d, ∀ parent, foreign? clause = some parent →
      parent.1 = clause.1 ∧ s.targetOf clause.2 = some parent.2.1 ∧
        s.hasMembers parent.2.1 = true := by
    intro clause _ parent hparent
    obtain ⟨target, htarget, hparent⟩ := Option.bind_eq_some_iff.mp hparent
    split at hparent
    · next hmembers =>
      rw [← Option.some.inj hparent]
      exact ⟨rfl, htarget, (Bool.and_eq_true_iff.mp hmembers).2⟩
    · exact absurd hparent (by simp)
  have hrenamed : ∀ parent ∈ s.foreignParents inBlock d, ∀ y, renamed? parent = some y →
      y.span = parent.1.slot := by
    intro parent _ y hy
    dsimp only [renamed?] at hy
    split at hy
    · rw [← Option.some.inj hy]
    · exact absurd hy (by simp)
  refine ⟨(Span.sublist_filterMap hrenamed).trans (Span.sublist_filterMap fun clause hclause parent
    hparent => congrArg Heritage.slot (hforeign clause hclause parent hparent).1), fun y hy => ?_⟩
  obtain ⟨parent, hparent, hy⟩ := List.mem_filterMap.mp hy
  have hspan := hrenamed parent hparent y hy
  obtain ⟨clause, hclause, hparent⟩ := List.mem_filterMap.mp hparent
  obtain ⟨hbase, htarget, hmembers⟩ := hforeign clause hclause parent hparent
  exact ⟨clause, hclause, by rw [hspan, hbase], parent.2.1, htarget, hmembers⟩

/-- Nothing is written for a base that has members. -/
theorem filling_of_base {ref : RefId} {r : Reference} {base : Heritage} {target : Key}
    (hnames : s.NamesBase key (base, ref)) (hr : s.reference? ref = some r)
    (hmembers : s.hasMembers target = true) : s.filling r target = none := by
  obtain ⟨r', hr', howner, hkind, hnested, -, hspan⟩ := hnames
  obtain rfl : r = r' := Option.some.inj (hr.symm.trans hr')
  have hkept : s.isLeftOut r target = false := by
    rw [isLeftOut]
    cases s.declaration? target with
    | none => rfl
    | some d =>
      rw [Option.any_some, leavesOut, hnested]
      rfl
  rw [filling, hspan, howner, Option.bind_some, hkept]
  dsimp only
  rw [if_neg (by simp), if_pos ⟨hkind, hmembers⟩]

/-! ### The slots of a declaration -/

namespace Sited

variable (h : s.Sited o requests)
include h

/-- What is written for references whose slots stand in a row. -/
theorem pairwise_written {owner : Option Key} {base : Span}
    (hrow : Span.Row base ((s.standing owner).filterMap (·.span))) :
    ((s.written owner).Pairwise fun a b => a.span.Apart b.span) ∧
      ∀ x ∈ s.written owner, x.span ∈ (s.standing owner).filterMap (·.span) := by
  have hsublist := s.sublist_fillings owner
  have hfillings : (s.fillings owner).Pairwise fun a b => a.span.Apart b.span :=
    (List.pairwise_map.mp (hrow.sublist hsublist).inOrder).imp Span.Before.apart
  refine ⟨(h.filledOnce owner).symm.pairwise hfillings fun h => h.symm, fun x hx => ?_⟩
  exact hsublist.subset (List.mem_map_of_mem ((h.filledOnce owner).mem_iff.mp hx))

/-- The slots of two references of a declaration share no position. -/
theorem apart_of_ne (he : s.graft? key = some e) {i j : RefId} {r r' : Reference} {a b : Span}
    (hr : s.reference? i = some r) (hr' : s.reference? j = some r') (hne : i ≠ j)
    (howner : r.owner = some key) (howner' : r'.owner = some key)
    (hspan : r.span = some a) (hspan' : r'.span = some b) : a.Apart b := by
  have hinOrder := (h.row_standing he).1.inOrder
  rw [standing, mentions, List.pairwise_filterMap, List.pairwise_filter, List.pairwise_map,
    List.pairwise_iff_getElem] at hinOrder
  obtain ⟨hi, rfl⟩ := List.getElem?_eq_some_iff.mp hr
  obtain ⟨hj, rfl⟩ := List.getElem?_eq_some_iff.mp hr'
  rcases Nat.lt_or_gt_of_ne hne with hlt | hlt
  · exact Or.inl (hinOrder i j hi hj hlt (decide_eq_true howner) (decide_eq_true howner') a hspan b
      hspan')
  · exact Or.inr (hinOrder j i hj hi hlt (decide_eq_true howner') (decide_eq_true howner) b hspan' a
      hspan)

/-- **What is written into the slots of a declaration** stands in its body or in what it extends. -/
theorem replacements (he : s.graft? key = some e) :
    (e.replacements.Pairwise fun a b => a.span.Apart b.span) ∧
      ∃ o', s.files.get? key.file = some o' ∧ ∀ x ∈ e.replacements,
        x.span.Cuts o'.source ∧ x.span.In e.declaration.statement ∧
          (x.span.In e.declaration.body ∨ ∃ base ∈ e.declaration.bases, x.span.In base.span) := by
  obtain ⟨o', ho', hlaid, hstanding⟩ := h.exists_outline he
  have hrow := (h.row_standing he).1
  obtain ⟨hapart, hmem⟩ := h.pairwise_written hrow
  have hwritten : s.written (some key) = e.replacements := by
    rw [written, he]
    rfl
  rw [hwritten] at hapart hmem
  refine ⟨hapart, o', ho', fun x hx => ?_⟩
  have hslot := hmem x hx
  have hin := hrow.inside _ hslot
  rw [hstanding, mentioned, List.filterMap_map] at hslot
  obtain ⟨m, hm, hspan⟩ := List.mem_filterMap.mp hslot
  rw [show x.span = m.span from (Option.some.inj hspan).symm] at hin ⊢
  have hm := (List.mem_filter.mp hm).1
  refine ⟨(hlaid.names m hm).1, hin, ?_⟩
  rw [Declaration.mentions_eq] at hm
  rcases List.mem_append.mp hm with hm | hm
  · obtain ⟨base, hbase, hm⟩ := List.mem_flatMap.mp hm
    exact Or.inr ⟨base, hbase, (hlaid.bases base hbase).inside _ (List.mem_map_of_mem hm)⟩
  · exact Or.inl (hlaid.members.inside _ (List.mem_map_of_mem hm))

/-- **What is changed in a declaration that stays in its place** stands in its statement. -/
theorem pairwise_kept (hclauses : s.Clauses) (he : s.graft? key = some e) (inBlock : List Key) :
    ((e.replacements ++ s.renamedParents inBlock e.declaration).Pairwise
      fun a b => a.span.Apart b.span) ∧
    ∃ o', s.files.get? key.file = some o' ∧
      ∀ x ∈ e.replacements ++ s.renamedParents inBlock e.declaration,
        x.span.Cuts o'.source ∧ x.span.In e.declaration.statement := by
  obtain ⟨hapart, o', ho', hplaces⟩ := h.replacements he
  obtain ⟨o₁, ho₁, hlaid, -⟩ := h.exists_outline he
  obtain rfl : o₁ = o' := Option.some.inj (ho₁.symm.trans ho')
  have hkey := (h.declared key e he).2
  obtain ⟨hfst, hnames⟩ := hclauses.heritages he hkey
  have hbases : ∀ clause ∈ s.heritages e.declaration, clause.1 ∈ e.declaration.bases := by
    intro clause hclause
    rw [← hfst]
    exact List.mem_map_of_mem hclause
  refine ⟨List.pairwise_append.mpr ⟨hapart, ?_, fun x hx y hy => ?_⟩, o₁, ho', fun x hx => ?_⟩
  · -- each renamed parent stands in the slot of a heritage of its own
    have hslots : e.declaration.bases.Pairwise fun a b => a.slot.Apart b.slot := by
      refine (List.pairwise_map.mp hlaid.head.inOrder).imp_of_mem fun {a b} ha hb hbefore => ?_
      exact Or.inl (hbefore.mono (hlaid.slot ha).1 (hlaid.slot hb).1)
    rw [← hfst, List.pairwise_map] at hslots
    have hsublist := (s.renamedParents_spec inBlock e.declaration).1
    exact List.pairwise_map.mp ((List.pairwise_map.mpr hslots).sublist hsublist)
  · -- a parent that is renamed was not filled in, so that what was filled in is of another name
    obtain ⟨ref, r, target, hr, howner, htarget, hfilling⟩ : ∃ ref r target,
        s.reference? ref = some r ∧ r.owner = some key ∧ r.target = some target ∧
          s.filling r target = some x := by
      refine (h.filledOnce.filled (some key) x).mp ?_
      rw [written, he]
      exact hx
    obtain ⟨clause, hclause, hspan, target', htarget', hmembers⟩ :=
      (s.renamedParents_spec inBlock e.declaration).2 y hy
    have hbase := hnames clause hclause
    have hne : ref ≠ clause.2 := by
      rintro rfl
      rw [targetOf_of_reference? hr, htarget] at htarget'
      obtain rfl := Option.some.inj htarget'
      rw [filling_of_base hbase hr hmembers] at hfilling
      exact absurd hfilling (by simp)
    obtain ⟨r', hr', howner', -, -, -, hspan'⟩ := hbase
    rw [hspan]
    exact h.apart_of_ne he hr hr' hne howner howner' (span_of_filling hfilling) hspan'
  · rcases List.mem_append.mp hx with hx | hx
    · exact ⟨(hplaces x hx).1, (hplaces x hx).2.1⟩
    · obtain ⟨clause, hclause, hspan, -⟩ := (s.renamedParents_spec inBlock e.declaration).2 x hx
      obtain ⟨hin, hcuts⟩ := hlaid.slot (hbases clause hclause)
      rw [hspan]
      exact ⟨hcuts, hin.trans (hlaid.head.inside _ (List.mem_map_of_mem (hbases clause hclause)))⟩

end Sited

/-! ### Statements -/

/-- **How the statements of the entry script lie**, with what it declares, imports and asks for. -/
structure Statements (o : Outline) (requests : List RootRequest) (stmts : List Node) : Prop where
  inOrder : stmts.Pairwise fun a b => (a.span.widened o.source).Before b.span
  cuts : ∀ stmt ∈ stmts, stmt.span.Cuts o.source
  spaced : Outline.Spaced o.source stmts o.declarations o.importList
  row : Span.Row (.whole o.source) (requests.filterMap (·.span))
  requests : ∀ a ∈ requests.filterMap (·.span), a.Cuts o.source ∧
    ∃ stmt ∈ stmts, a.In stmt.span ∧ Request.expressions stmt ≠ []

theorem Session.exists_statements (h : Session world s o requests external)
    (hentry : s.entry = some o.path) : ∃ stmts, Statements o requests stmts := by
  have hinside := h.external_eq hentry
  cases h with
  | @script _ source tree macros _ _ _ hscript h =>
    obtain ⟨rfl, -⟩ := Outline.sound_ofTree h
    have hspans : ((Request.ofTree macros o.source tree).map fun r =>
        (⟨r.name, some r.span, r.line⟩ : RootRequest)).filterMap (·.span) =
          (Request.ofTree macros o.source tree).map (·.span) := by
      rw [List.filterMap_map, ← List.filterMap_eq_map]
      rfl
    refine ⟨tree.namedChildren, Outline.pairwise_widened hscript, fun stmt hstmt => ?_,
      Outline.spaced_ofTree hscript h, ?_, ?_⟩
    · exact (hscript.wellFormed.namedChild hstmt).wellFormed.cuts
    · rw [hspans]
      exact (Request.row_ofTree hscript.wellFormed).mono hscript.wellFormed.cuts.inside
    · rw [hspans]
      intro a ha
      obtain ⟨request, hrequest, rfl⟩ := List.mem_map.mp ha
      obtain ⟨stmt, hstmt, hasks, argument, hlies, -, hspan⟩ :=
        Request.exists_of_mem_ofTree hscript.wellFormed hrequest
      rw [hspan]
      exact ⟨hlies.wellFormed.cuts, stmt, hstmt, hlies.inside, hasks⟩
  | file => exact absurd hinside (by simp)

namespace Statements

variable {stmts : List Node} (h : Statements o requests stmts)
include h

/-- A statement that makes a request is none of those that are listed. -/
theorem clear {stmt : Node} {a : Span} (hstmt : stmt ∈ stmts)
    (hasks : Request.expressions stmt ≠ []) (ha : Outline.IsStatement stmts a) :
    stmt.span.Clear o.source a := by
  obtain ⟨other, hother, rfl, hsilent⟩ := ha
  have hne : stmt ≠ other := fun heq => hasks (heq ▸ hsilent)
  have hsymm : Std.Symm fun a b : Node => a.span.Clear o.source b.span := ⟨fun _ _ h => h.symm⟩
  have hclear : stmts.Pairwise fun a b => a.span.Clear o.source b.span := h.inOrder.imp Or.inl
  exact hclear.forall hstmt hother hne

end Statements

/-! ### The edits of the entry script -/

/-- **An edit of a statement** lies in it, or in the line break behind it. -/
structure EditsStatement (source : Bytes) (a : Span) (x : Replacement) : Prop where
  cuts : x.span.Cuts source
  inside : x.span.In (a.widened source)

namespace Sited

variable {stmts : List Node} (h : s.Sited o requests) (hstmts : Statements o requests stmts)
include h

/-- What is written into the slots of the requests. -/
theorem pairwise_rootEdits (hstmts : Statements o requests stmts) :
    (s.rootEdits.Pairwise fun a b => a.span.Apart b.span) ∧
      ∀ x ∈ s.rootEdits, x.span.Cuts o.source ∧
        ∃ stmt ∈ stmts, x.span.In stmt.span ∧ Request.expressions stmt ≠ [] := by
  have hspans : (s.standing none).filterMap (·.span) = requests.filterMap (·.span) := by
    rw [h.requested, rootReferences, List.filterMap_map]
    rfl
  have hrow : Span.Row (.whole o.source) ((s.standing none).filterMap (·.span)) := by
    rw [hspans]
    exact hstmts.row
  obtain ⟨hapart, hmem⟩ := h.pairwise_written hrow
  exact ⟨hapart, fun x hx => hstmts.requests _ (hspans ▸ hmem x hx)⟩

/-- **The edits of a declaration** lie in its statement. -/
theorem pairwise_editsOf (hclauses : s.Clauses) (ho : s.files.get? o.path = some o)
    (he : s.graft? key = some e) (hfile : key.file = o.path) :
    ((s.editsOf orders clean o e).Pairwise fun a b => a.span.Apart b.span) ∧
      ∀ x ∈ s.editsOf orders clean o e, EditsStatement o.source e.declaration.statement x := by
  obtain ⟨o', ho', hlaid, -⟩ := h.exists_outline he
  rw [hfile] at ho'
  obtain rfl : o' = o := Option.some.inj (ho'.symm.trans ho)
  have hstatement := hlaid.statement
  rw [editsOf, declarationEdits]
  split
  · refine ⟨List.pairwise_singleton _ _, fun x hx => ?_⟩
    rw [List.mem_singleton.mp hx]
    exact ⟨hstatement.erasure clean, hstatement.erasure_in clean⟩
  · split
    · obtain ⟨hapart, o₁, ho₁, hplaces⟩ := h.pairwise_kept hclauses he (s.blockKeys orders)
      rw [hfile] at ho₁
      obtain rfl : o₁ = o' := Option.some.inj (ho₁.symm.trans ho)
      exact ⟨hapart, fun x hx => ⟨(hplaces x hx).1, (hplaces x hx).2.trans hstatement.in_widened⟩⟩
    · exact ⟨List.Pairwise.nil, fun x hx => absurd hx List.not_mem_nil⟩

omit h in
/-- What becomes of an import statement. -/
theorem editsStatement_of_trimmed? {stmt : Import} {x : Replacement}
    (hstmt : stmt.span.Cuts o.source) (hx : s.trimmed? orders clean o stmt = some x) :
    EditsStatement o.source stmt.span x := by
  rw [trimmed?, trimming?_eq] at hx
  dsimp only at hx
  split at hx
  · exact absurd hx (by simp)
  · split at hx
    · rw [← Option.some.inj hx]
      exact ⟨hstmt.erasure clean, hstmt.erasure_in clean⟩
    · rw [← Option.some.inj hx]
      exact ⟨hstmt, hstmt.in_widened⟩

/-- A declaration of the script is one of those that the scan listed. -/
theorem of_isEntryFile (hentry : s.entry = some o.path) (ho : s.files.get? o.path = some o)
    (hmem : (key, e) ∈ s.grafts) (hfile : s.isEntryFile e.declaration.file = true) :
    s.graft? key = some e ∧ key.file = o.path ∧
      o.declarations.get? key.name = some e.declaration := by
  have he : s.graft? key = some e := Table.get?_of_mem h.once hmem
  obtain ⟨hdeclared, hkey⟩ := h.declared key e he
  have hpath : key.file = o.path := by
    rw [isEntryFile, hentry, beq_iff_eq] at hfile
    exact (congrArg Key.file hkey).symm.trans (Option.some.inj hfile).symm
  rw [declaration?, hpath, ho] at hdeclared
  exact ⟨he, hpath, hdeclared⟩

/-- What is changed in the entry script is what whole characters of it stand for. -/
theorem cuts_of_mem_rawEdits {x : Replacement} (hclauses : s.Clauses)
    (hentry : s.entry = some o.path)
    (ho : s.files.get? o.path = some o) (hstmts : Statements o requests stmts)
    (hx : x ∈ s.rawEdits orders clean o) : x.span.Cuts o.source := by
  rcases mem_rawEdits_iff.mp hx with hx | ⟨key, e, hmem, hfile, hx⟩ | ⟨stmt, hstmt, hx⟩
  · exact ((h.pairwise_rootEdits hstmts).2 x hx).1
  · obtain ⟨he, hpath, -⟩ := h.of_isEntryFile hentry ho hmem hfile
    exact ((h.pairwise_editsOf hclauses ho he hpath).2 x hx).cuts
  · obtain ⟨node, hnode, hspan, -⟩ := hstmts.spaced.import_ stmt hstmt
    exact (editsStatement_of_trimmed? (hspan ▸ hstmts.cuts node hnode) hx).cuts

/-- **All that is changed in the entry script** can be changed at once. -/
theorem pairwise_rawEdits (hclauses : s.Clauses) (hentry : s.entry = some o.path)
    (ho : s.files.get? o.path = some o) (hstmts : Statements o requests stmts) :
    ((s.rawEdits orders clean o).Pairwise fun a b => a.span.Apart b.span) ∧
      ∀ x ∈ s.rawEdits orders clean o, x.span.Cuts o.source := by
  refine ⟨?_, fun x hx => h.cuts_of_mem_rawEdits hclauses hentry ho hstmts hx⟩
  have hspaced := hstmts.spaced
  obtain ⟨hroots, hasked⟩ := h.pairwise_rootEdits hstmts
  let listed := s.grafts.filter fun entry => s.isEntryFile entry.2.declaration.file
  have hown : ∀ entry ∈ listed, s.graft? entry.1 = some entry.2 ∧ entry.1.file = o.path ∧
      o.declarations.get? entry.1.name = some entry.2.declaration := fun entry hmem =>
    h.of_isEntryFile hentry ho (List.mem_filter.mp hmem).1 (List.mem_filter.mp hmem).2
  have hdeclared : ∀ entry ∈ listed,
      ((s.editsOf orders clean o entry.2).Pairwise fun a b => a.span.Apart b.span) ∧
        ∀ x ∈ s.editsOf orders clean o entry.2,
          EditsStatement o.source entry.2.declaration.statement x := by
    intro entry hmem
    obtain ⟨he, hpath, -⟩ := hown entry hmem
    exact h.pairwise_editsOf hclauses ho he hpath
  have himported : ∀ stmt ∈ o.importList, ∀ x, s.trimmed? orders clean o stmt = some x →
      EditsStatement o.source stmt.span x := by
    intro stmt hstmt x hx
    obtain ⟨node, hnode, hspan, -⟩ := hspaced.import_ stmt hstmt
    exact editsStatement_of_trimmed? (hspan ▸ hstmts.cuts node hnode) hx
  have hasks : ∀ x ∈ s.rootEdits, ∀ a, Outline.IsStatement stmts a → ∀ y,
      EditsStatement o.source a y → x.span.Apart y.span := by
    intro x hx a ha y hy
    obtain ⟨-, stmt, hstmt, hin, hexpressions⟩ := hasked x hx
    exact (hstmts.clear hstmt hexpressions ha).apart
      (hin.trans (hstmts.cuts stmt hstmt).in_widened) hy.inside
  have hraw : s.rawEdits orders clean o = s.rootEdits ++
      listed.flatMap (fun entry => s.editsOf orders clean o entry.2) ++
        o.importList.filterMap (s.trimmed? orders clean o) := by
    rw [rawEdits, List.filter_map, List.flatMap_map]
    rfl
  have hkeys : listed.Pairwise fun a b => a.1 ≠ b.1 := (List.pairwise_map.mp h.once).filter _
  rw [hraw]
  refine List.pairwise_append.mpr ⟨List.pairwise_append.mpr ⟨hroots, ?_, ?_⟩, ?_, ?_⟩
  · -- two declarations
    refine List.pairwise_flatMap.mpr ⟨fun entry hmem => (hdeclared entry hmem).1,
      hkeys.imp_of_mem fun {a b} ha hb hne x hx y hy => ?_⟩
    obtain ⟨-, hpath, hd⟩ := hown a ha
    obtain ⟨-, hpath', hd'⟩ := hown b hb
    have hname : a.1.name ≠ b.1.name := fun hname =>
      hne (congrArg₂ Key.mk (hpath.trans hpath'.symm) hname)
    exact (hspaced.apart _ _ _ _ hd hd' hname).apart ((hdeclared a ha).2 x hx).inside
      ((hdeclared b hb).2 y hy).inside
  · -- a request and a declaration
    intro x hx y hy
    obtain ⟨entry, hmem, hy⟩ := List.mem_flatMap.mp hy
    obtain ⟨-, -, hd⟩ := hown entry hmem
    exact hasks x hx _ (hspaced.declaration _ _ hd) y ((hdeclared entry hmem).2 y hy)
  · -- two imports
    refine List.pairwise_filterMap.mpr (hspaced.importsApart.imp_of_mem
      fun {a b} ha hb hclear x hx y hy => ?_)
    exact hclear.apart (himported a ha x hx).inside (himported b hb y hy).inside
  · -- an import and something else
    intro x hx y hy
    obtain ⟨stmt, hstmt, hy⟩ := List.mem_filterMap.mp hy
    have hy := himported stmt hstmt y hy
    rcases List.mem_append.mp hx with hx | hx
    · exact hasks x hx _ (hspaced.import_ stmt hstmt) y hy
    · obtain ⟨entry, hmem, hx⟩ := List.mem_flatMap.mp hx
      obtain ⟨-, -, hd⟩ := hown entry hmem
      exact (hspaced.between _ _ hd stmt hstmt).apart
        ((hdeclared entry hmem).2 x hx).inside hy.inside

end Sited

/-! ### Making the edits -/

/-- **What is written into the slots of a declaration can be written at once**, into its body and
into each of the types that it extends. -/
structure Writable (e : Graft) : Prop where
  apart : e.replacements.Pairwise fun a b => a.span.Apart b.span
  inside : ∀ x ∈ e.replacements,
    x.span.In e.declaration.body ∨ ∃ base ∈ e.declaration.bases, x.span.In base.span
  body : ∃ body, filledBody e = .ok body
  bases : ∀ base ∈ e.declaration.bases, ∃ text, Replacement.applyAll (Bytes.ofString base.text)
    base.span (e.replacements.filter fun x => base.span.contains x.span) = .ok text

/-- **The edits of a script can be made at once**: they are in order, share no position and lie in
the script. What they leave of text that is encoded is encoded. -/
structure Editable (source : Bytes) (edits : List Replacement) : Prop where
  sorted : edits.Pairwise fun a b => a.span.le b.span = true
  apart : edits.Pairwise fun a b => a.span.Before b.span
  inside : ∀ x ∈ edits, x.span.In (.whole source)
  applies : ∃ bytes, Replacement.applyAll source (.whole source) edits = .ok bytes ∧
    (source.Encoded → bytes.Encoded)

theorem Sited.writable (h : s.Sited o requests) (he : s.graft? key = some e) : Writable e := by
  obtain ⟨hapart, o', ho', hplaces⟩ := h.replacements he
  obtain ⟨-, body, hbody, -⟩ := h.exists_reads he
  refine ⟨hapart, fun x hx => (hplaces x hx).2.2, ⟨body, hbody⟩, fun base hbase => ?_⟩
  refine Replacement.exists_applyAll _ (fun x hx => ?_) (hapart.filter _)
  obtain ⟨hx, hcontains⟩ := List.mem_filter.mp hx
  rw [Span.contains, Bool.and_eq_true, decide_eq_true_eq, decide_eq_true_eq] at hcontains
  exact ⟨hcontains.1, (hplaces x hx).1.inside.2.1, hcontains.2⟩

theorem editable_inOrder {source : Bytes} {entries : List Replacement}
    (hapart : entries.Pairwise fun a b => a.span.Apart b.span)
    (hcuts : ∀ x ∈ entries, x.span.Cuts source) :
    Editable source (Replacement.inOrder entries) := by
  have hmem : ∀ x ∈ Replacement.inOrder entries, x.span.Cuts source :=
    fun x hx => hcuts x ((List.mergeSort_perm _ _).mem_iff.mp hx)
  have hbefore := Replacement.pairwise_before_inOrder (fun x hx => (hcuts x hx).inside.2.1) hapart
  have hin : ∀ x ∈ Replacement.inOrder entries, x.span.In (.whole source) :=
    fun x hx => (hmem x hx).inside
  refine ⟨Replacement.sorted_inOrder entries, hbefore, hin, _, Replacement.applyAll_eq hin
    (hbefore.imp Span.Before.apart) (by simp [Span.whole]), fun henc => ?_⟩
  have hlaid := Replacement.laid_inOrder hin (hbefore.imp Span.Before.apart)
  have hslots : ∀ slot ∈ (Replacement.inOrder (Replacement.inOrder entries)).map Replacement.slot,
      slot.1.Cuts source ∧ slot.2.Encoded := by
    intro slot hslot
    obtain ⟨x, hx, rfl⟩ := List.mem_map.mp hslot
    exact ⟨hmem x ((List.mergeSort_perm _ _).mem_iff.mp hx), Bytes.encoded_ofString x.text⟩
  exact Slots.encoded_fill hlaid henc (fun slot hslot => (hslots slot hslot).1.encoded henc)
    (fun slot hslot => (hslots slot hslot).2) le_rfl
      (by simpa [Slots.CutAt] using Bytes.encoded_nil)
    fun slot hslot => (hslots slot hslot).1.inside.1

/-- **A script of which all is encoded** gets its new code. -/
theorem Editable.exists_newCode {script : SetupScript} {spliced : Splice}
    (h : Editable script.source spliced.edits) (henc : script.source.Encoded) (code : String) :
    ∃ newCode, script.newCode code spliced = .ok newCode := by
  unfold SetupScript.newCode
  split
  · exact ⟨code, rfl⟩
  · obtain ⟨bytes, hbytes, hencoded⟩ := h.applies
    obtain ⟨text, htext⟩ := (hencoded henc).toString?
    unfold SetupScript.edited
    rw [hbytes]
    dsimp only
    rw [htext]
    exact ⟨_, rfl⟩

theorem editable_nil (source : Bytes) : Editable source [] :=
  ⟨List.Pairwise.nil, List.Pairwise.nil, fun _ hx => absurd hx List.not_mem_nil, source,
    Replacement.applyAll_nil _ _, id⟩

/-- **What the block is printed from**: the bodies of what goes into it, and the types that the
heads of these go on extending. -/
inductive Prints (s : Harvest) (bodies : Table Key Bytes) (keys : List Key) : Bytes → Prop where
  | body {key : Key} {e : Graft} (listed : key ∈ keys) (taken : s.graft? key = some e) :
      Prints s bodies keys ((bodies.get? key).getD [])
  | base {key : Key} {e : Graft} {clause : Heritage × RefId} {bytes : Bytes} (listed : key ∈ keys)
      (taken : s.graft? key = some e) (extended : clause ∈ s.heritages e.declaration)
      (kept : (s.targetOf clause.2).any s.hasMembers = false)
      (filled : Replacement.applyAll (Bytes.ofString clause.1.text) clause.1.span
        (e.replacements.filter fun x => clause.1.span.contains x.span) = .ok bytes) :
      Prints s bodies keys bytes

/-- A declaration is not printed only if a text of it is not encoded. -/
theorem Sited.exists_of_render (h : s.Sited o requests) {bodies : Table Key Bytes} {keys : List Key}
    {failure : Failure} (hkey : key ∈ keys) (hfailure : s.render bodies key = .error failure) :
    failure = .undecodable ∧ ∃ bytes, s.Prints bodies keys bytes ∧ ¬bytes.Encoded := by
  unfold render at hfailure
  split at hfailure
  · exact absurd hfailure (by simp)
  · next e he =>
    split at hfailure
    · next failure' hparents =>
      obtain rfl := Except.error.inj hfailure
      obtain ⟨clause, hclause, hparents⟩ := exists_of_mapM_error hparents
      obtain ⟨hclause, hkept⟩ := List.mem_filter.mp hclause
      obtain ⟨bytes, hbytes⟩ := (h.writable he).bases clause.1 (List.of_mem_zip hclause).1
      rw [heritageText, hbytes] at hparents
      dsimp only at hparents
      split at hparents
      · exact absurd hparents (by simp)
      · next hnone =>
        exact ⟨(Except.error.inj hparents).symm, bytes,
          .base hkey he hclause ((Bool.not_eq_true' _).mp hkept) hbytes,
          Bytes.toString?_eq_none_iff.mp hnone⟩
    · split at hfailure
      · exact absurd hfailure (by simp)
      · next hnone =>
        exact ⟨(Except.error.inj hfailure).symm, _, .body hkey he,
          Bytes.toString?_eq_none_iff.mp hnone⟩

/-- All that the block is printed from is encoded. -/
theorem Prints.encoded_of_block {bodies : Table Key Bytes} {keys : List Key} {block : String}
    {bytes : Bytes} (h : s.Prints bodies keys bytes) (hblock : s.block bodies keys = .ok block) :
    bytes.Encoded := by
  have hencoded : ∀ bytes : Bytes, ∀ text, bytes.toString? = some text → bytes.Encoded :=
    fun _ text htext => ⟨text, Bytes.ofString_of_toString? htext⟩
  have hrender : ∀ key ∈ keys, ∃ line, s.render bodies key = .ok line := by
    intro key hkey
    cases hlines : keys.mapM (s.render bodies) with
    | error failure =>
      rw [Harvest.block, hlines] at hblock
      exact absurd hblock (by simp [Except.map])
    | ok lines =>
      obtain ⟨line, -, hline⟩ := exists_of_mem_of_mapM hlines hkey
      exact ⟨line, hline⟩
  cases h with
  | body hkey he =>
    obtain ⟨line, hline⟩ := hrender _ hkey
    rw [render, he] at hline
    dsimp only at hline
    split at hline
    · exact absurd hline (by simp)
    · split at hline
      · next text htext => exact hencoded _ text htext
      · exact absurd hline (by simp)
  | base hkey he hclause hkept hbytes =>
    obtain ⟨line, hline⟩ := hrender _ hkey
    rw [render, he] at hline
    dsimp only at hline
    split at hline
    · exact absurd hline (by simp)
    · next parents hparents =>
      obtain ⟨text, -, htext⟩ := exists_of_mem_of_mapM hparents
        (List.mem_filter.mpr ⟨hclause, (Bool.not_eq_true' _).mpr hkept⟩)
      rw [heritageText, hbytes] at htext
      dsimp only at htext
      split at htext
      · next hread => exact hencoded _ _ hread
      · exact absurd htext (by simp)

/-- **The block is printed** unless a text that it is printed from is not encoded. -/
theorem Sited.block_eq_error_iff (h : s.Sited o requests) {bodies : Table Key Bytes}
    {keys : List Key} {failure : Failure} : s.block bodies keys = .error failure ↔
      failure = .undecodable ∧ ∃ bytes, s.Prints bodies keys bytes ∧ ¬bytes.Encoded := by
  have hfails : ∀ {failure}, s.block bodies keys = .error failure →
      failure = .undecodable ∧ ∃ bytes, s.Prints bodies keys bytes ∧ ¬bytes.Encoded := by
    intro failure hfailure
    cases hlines : keys.mapM (s.render bodies) with
    | error failure' =>
      rw [block, hlines] at hfailure
      obtain rfl : failure' = failure := Except.error.inj hfailure
      obtain ⟨key, hkey, hrender⟩ := exists_of_mapM_error hlines
      exact h.exists_of_render hkey hrender
    | ok lines =>
      rw [block, hlines] at hfailure
      exact absurd hfailure (by simp [Except.map])
  refine ⟨hfails, ?_⟩
  rintro ⟨rfl, bytes, hprints, hillegible⟩
  cases hblock : s.block bodies keys with
  | error failure => rw [(hfails hblock).1]
  | ok block => exact absurd (hprints.encoded_of_block hblock) hillegible

/-- What is merged leaves the references and the slots alone. -/
theorem Sited.absorbParents (h : s.Sited o requests) (orders : Orders) (own : Table Key Bytes) :
    (s.absorbParents orders own).1.Sited o requests := by
  obtain ⟨grafts, heq, hnames, -⟩ := s.exists_inheritDependencies orders.absorbOrder
  have hwritten : ∀ owner, (orders.absorbOrder.foldl inheritDependencies s).written owner =
      s.written owner := fun owner => s.written_inheritDependencies orders.absorbOrder
  have hmerged : (s.absorbParents orders own).1 = { s with grafts } := heq
  rw [heq] at hnames hwritten
  rw [hmerged]
  exact h.of_keeps ⟨rfl, rfl, rfl, rfl, rfl, rfl, hnames⟩ rfl hwritten

/-- The orders are found without a change to the references and the slots. -/
theorem Sited.ordered (h : s.Sited o requests) : s.orders.1.Sited o requests :=
  h.of_keeps ⟨rfl, rfl, rfl, rfl, rfl, rfl, rfl⟩ rfl fun owner => by cases owner <;> rfl

/-- What splicing ends with has the references and the slots of what was found. -/
theorem Sited.splice {spliced : Splice} (h : s.Sited o requests)
    (hsplice : s.splice orders clean = .ok (s', spliced)) : s'.Sited o requests := by
  obtain ⟨⟨grafts, events, heq⟩, hnames, -⟩ := exists_splice hsplice
  refine h.of_keeps ?_ (by rw [heq]) fun owner => written_of_splice hsplice
  exact ⟨by rw [heq], by rw [heq], by rw [heq], by rw [heq], by rw [heq], by rw [heq], hnames⟩

/-- **What is printed of what a search has found**, once the bases are merged. -/
def Printed (found : Harvest) (bytes : Bytes) : Prop :=
  ∃ own, found.orders.1.filledBodies = .ok own ∧
    (found.orders.1.absorbParents found.orders.2 own).1.Prints
      (found.orders.1.absorbParents found.orders.2 own).2
      ((found.orders.1.absorbParents found.orders.2 own).1.blockKeys found.orders.2) bytes

/-- **Splicing what a search has found** fails exactly if a text that is to be printed is not
encoded. -/
theorem Session.splice_eq_error_iff {found : Harvest} {failure : Failure}
    (hsession : Session world s o requests external)
    (h : s.search world o requests external = (found, .ok ())) :
    found.orders.1.splice found.orders.2 clean = .error failure ↔
      failure = .undecodable ∧ ∃ bytes, found.Printed bytes ∧ ¬bytes.Encoded := by
  have hordered := (sited_of_search hsession h).ordered
  obtain ⟨own, hown⟩ : ∃ own, found.orders.1.filledBodies = .ok own := exists_filledBodies
    fun key e hmem => (hordered.writable (Table.get?_of_mem hordered.once hmem)).body
  have hprinted : ∀ bytes, found.Printed bytes ↔
      (found.orders.1.absorbParents found.orders.2 own).1.Prints
        (found.orders.1.absorbParents found.orders.2 own).2
        ((found.orders.1.absorbParents found.orders.2 own).1.blockKeys found.orders.2) bytes := by
    intro bytes
    refine ⟨?_, fun hprints => ⟨own, hown, hprints⟩⟩
    rintro ⟨own', hown', hprints⟩
    obtain rfl := Except.ok.inj (hown.symm.trans hown')
    exact hprints
  simp only [hprinted]
  rw [← (hordered.absorbParents found.orders.2 own).block_eq_error_iff, Harvest.splice, hown]
  dsimp only
  split
  · next hblock => rw [hblock]; simp
  · next hblock => rw [hblock]; simp

/-- Splicing what a search has found fails at most at a text that is not encoded. -/
theorem Session.undecodable_of_splice {found : Harvest} {failure : Failure}
    (hsession : Session world s o requests external)
    (h : s.search world o requests external = (found, .ok ()))
    (hfailure : found.orders.1.splice found.orders.2 clean = .error failure) :
    failure = .undecodable :=
  ((hsession.splice_eq_error_iff h).mp hfailure).1

/-- The edits that splicing lists can be made at once. -/
theorem Session.editable_of_splice {found ended : Harvest} {spliced : Splice}
    (hsession : Session world s o requests external)
    (h : s.search world o requests external = (found, .ok ()))
    (hsplice : found.orders.1.splice found.orders.2 clean = .ok (ended, spliced)) :
    Editable o.source spliced.edits := by
  have hended := (sited_of_search hsession h).ordered.splice hsplice
  have hchanges := (searching_of_search hsession.opened h).2
  have hbegun := begun_eq hsession.opened.unsearched requests external
  obtain ⟨⟨grafts, events, heq⟩, hnames, -⟩ := exists_splice hsplice
  have hfile : ended.files.get? o.path = some o := by
    rw [heq]
    exact hchanges.file (hbegun ▸ hsession.opened.unsearched.file)
  have hentry : ended.entry = s.entry := by
    rw [heq]
    exact hchanges.entry.trans (by rw [hbegun])
  have hclauses : ended.Clauses := (clauses_of_search hsession.opened h).of_eq hnames
    (by rw [heq]; rfl) (by rw [heq]; rfl)
  rw [edits_of_splice hsplice]
  rcases hsession.opened.unsearched.entry with ⟨hopen, -⟩ | ⟨hopen, -⟩
  · -- a file whose exports are asked for is left alone
    rw [edits_of_no_entry (hentry.trans hopen)]
    exact editable_nil o.source
  · obtain ⟨stmts, hstmts⟩ := hsession.exists_statements hopen
    rw [edits_eq (hentry.trans hopen) hfile]
    obtain ⟨hapart, hcuts⟩ := hended.pairwise_rawEdits hclauses (hentry.trans hopen) hfile hstmts
    exact editable_inOrder hapart hcuts

/-- **Nothing that is written meets.** What a search has found can be written into its slots, so
that splicing fails at most at a text that is not encoded, and then all edits of the script can be
made at once. -/
theorem editable_of_session {found : Harvest} (hsession : Session world s o requests external)
    (h : s.search world o requests external = (found, .ok ())) (clean : Cleaning) :
    (∀ key e, found.graft? key = some e → Writable e) ∧
      match found.orders.1.splice found.orders.2 clean with
      | .error failure => failure = .undecodable
      | .ok (_, spliced) => Editable o.source spliced.edits ∧ (o.source.Encoded →
          ∀ script : SetupScript, script.source = o.source → ∀ code,
            ∃ newCode, script.newCode code spliced = .ok newCode) := by
  refine ⟨fun key e he => (sited_of_search hsession h).writable he, ?_⟩
  split
  · next failure hfailure => exact hsession.undecodable_of_splice h hfailure
  · next ended spliced hsplice =>
    have heditable := hsession.editable_of_splice h hsplice
    refine ⟨heditable, fun henc script hsource code => ?_⟩
    rw [← hsource] at heditable henc
    exact heditable.exists_newCode henc code

end Harvest

/-- **A search that is spliced** always leads to new code. -/
theorem SetupScript.exists_newCode {macros : List String} {strict : Bool} {path code : String}
    {script : SetupScript} {s s' : Harvest} {o : Outline} {orders : Orders} {spliced : Splice}
    (hcomponent : ofComponent? macros path code = .ok (some script))
    (hopen : script.open_ strict path = .ok (s, o))
    (hends : s.searchAndSplice world o script.rootRequests false clean =
      (s', .ok (orders, spliced))) :
    ∃ newCode, script.newCode code spliced = .ok newCode := by
  obtain ⟨found, hsearch, horders, hsplice⟩ := Harvest.exists_search_of_searchAndSplice hends
  rw [← horders] at hsplice
  have heditable := (SetupScript.session world hcomponent hopen).editable_of_splice hsearch hsplice
  rw [(SetupScript.opened world hopen).2.2.2] at heditable
  exact heditable.exists_newCode
    ((ofComponent?_eq_iff.mp hcomponent).source ▸ Bytes.encoded_ofString _) code

/-! ### Four edits -/

/-- A script that names an alias in two ways, with an alias and an interface of its own. -/
def fourEdits : String :=
  "\nimport \x7b B, Id, Id as G \x7d from './b'\ntype Own = Id[]\n" ++
    "interface P extends B \x7b f: string \x7d\ndefineEmits<G>()\ndefineEmits<Id>()\n" ++
    "defineProps<P>()\ndefineEmits<Own>()\n"

set_option maxRecDepth 100000 in
/-- An import is dropped, the slot in the alias is filled, the interface goes into the block, and
the slot of a request is filled. -/
theorem Harvest.editable_of_session_fourEdits :
    ∃ (run : Inlining World.baseModule .standard false "/w/App.vue" (componentOf fourEdits))
      (found : Harvest),
      run.opened.search World.baseModule run.outline run.script.rootRequests false =
        (found, .ok ()) ∧ (∀ key e, found.graft? key = some e → Writable e) ∧
      run.splice.edits = [⟨⟨1, 37⟩, ""⟩, ⟨⟨49, 51⟩, "G"⟩, ⟨⟨54, 89⟩, ""⟩, ⟨⟨119, 121⟩, "G"⟩] ∧
      Editable run.outline.source run.splice.edits := by
  have helement : ScriptElement.setup? (componentOf fourEdits) = some (elementOf fourEdits) :=
    ScriptElement.setup?_componentOf (by decide +kernel)
  obtain ⟨run, hexpected, -⟩ := Inlining.exists_of_comesTo helement
    (show Inlining.comesTo World.baseModule .standard false "/w/App.vue" (componentOf fourEdits)
      (elementOf fourEdits) (fun _ _ _ _ spliced _ => decide (spliced.edits =
        [⟨⟨1, 37⟩, ""⟩, ⟨⟨49, 51⟩, "G"⟩, ⟨⟨54, 89⟩, ""⟩, ⟨⟨119, 121⟩, "G"⟩])) = true by
      decide +kernel)
  obtain ⟨found, hsearch, horders, hsplice⟩ := Harvest.exists_search_of_searchAndSplice run.ends
  obtain ⟨hwritable, heditable⟩ := Harvest.editable_of_session run.session.session hsearch
    Project.standard.cleaning
  rw [horders, hsplice] at heditable
  exact ⟨run, found, hsearch, hwritable, of_decide_eq_true hexpected, heditable.1⟩

end TypeGraft
