import TypeGraft.Proofs.Splice.Declared
import TypeGraft.Proofs.Splice.Merging

/-!
# What becomes of the declarations of the script

A declaration of the script that was found is written once: in the block, or in its place
(`TypeGraft.Harvest.accounted_of_session`).

* **An interface that takes in its bases** goes into the block under its own name, and one edit
  takes all of its statement away (`TypeGraft.Harvest.Hoisted`).
* **Any other alias or interface** stays where it is. What is edited in its statement are the slots
  that are filled, and the names of bases that went into the block under other names
  (`TypeGraft.Harvest.Stays`). Nothing covers the statement as a whole, since all slots stand behind
  its first word.
* **An enumeration** is left alone. What goes into the block for it has a name of its own.

The edits of two statements do not meet, nor do those of a request or an import meet a declaration.
So the edits that touch the statement of a declaration (`TypeGraft.Splice.touching`) are those that
were listed for it, each once (`TypeGraft.Harvest.Sited.touching_perm`).
-/

namespace TypeGraft

open Syntax

/-- **The edits that touch** a part of the script. -/
def Splice.touching (spliced : Splice) (a : Span) : List Replacement :=
  spliced.edits.filter fun x => x.span.overlaps a

theorem Span.In.overlaps {a b : Span} (h : a.In b) (hlong : a.start < a.stop) :
    a.overlaps b = true := by
  obtain ⟨hstart, -, hstop⟩ := h
  rw [Span.overlaps, Bool.and_eq_true, decide_eq_true_eq, decide_eq_true_eq]
  omega

theorem Span.overlaps_of_contains {a b : Span} (h : a.contains b = true)
    (hlong : b.start < b.stop) : a.overlaps b = true := by
  rw [Span.contains, Bool.and_eq_true, decide_eq_true_eq, decide_eq_true_eq] at h
  rw [Span.overlaps, Bool.and_eq_true, decide_eq_true_eq, decide_eq_true_eq]
  omega

namespace Harvest

variable {world : World} {s s' : Harvest} {o : Outline} {requests : List RootRequest}
  {external : Bool} {key : Key} {e : Graft} {orders : Orders} {clean : Cleaning}
  {spliced : Splice} {x : Replacement}

/-! ### Names in the block -/

theorem WellNamed.of_keeps (h : s.WellNamed o) (hkeeps : s.Keeps s')
    (hreferences : s'.references = s.references) : s'.WellNamed o := by
  have hgraft : ∀ key e', s'.graft? key = some e' → ∃ e, s.graft? key = some e ∧
      e.declaration = e'.declaration ∧ e.newName = e'.newName :=
    fun key e' he' => hkeeps.symm.graft he'
  have hentry : ∀ file, s'.isEntryFile file = s.isEntryFile file := by
    intro file
    rw [isEntryFile, isEntryFile, hkeeps.entry]
  refine ⟨?_, ?_, ?_, ?_, ?_, ?_⟩
  · rw [hkeeps.names]
    exact h.once
  · intro key key' e e' he he' hname
    obtain ⟨e₀, he₀, -, hname₀⟩ := hgraft key e he
    obtain ⟨e₁, he₁, -, hname₁⟩ := hgraft key' e' he'
    exact h.apart key key' e₀ e₁ he₀ he₁ (hname₀.trans (hname.trans hname₁.symm))
  · intro key e he hfile hd
    obtain ⟨e₀, he₀, hd₀, hname₀⟩ := hgraft key e he
    rw [← hname₀]
    exact h.own key e₀ he₀ (hentry _ ▸ hfile) (hd₀ ▸ hd)
  · intro hfile name d hd henumeration key e he hname
    obtain ⟨e₀, he₀, -, hname₀⟩ := hgraft key e he
    exact h.reserved (hentry _ ▸ hfile) name d hd henumeration key e₀ he₀ (hname₀.trans hname)
  · intro key e he hd
    obtain ⟨e₀, he₀, hd₀, hname₀⟩ := hgraft key e he
    rw [← hname₀]
    exact h.enumeration key e₀ he₀ (hd₀ ▸ hd)
  · intro key e he hfile hroots
    obtain ⟨e₀, he₀, -, hname₀⟩ := hgraft key e he
    rw [← hname₀]
    refine h.marked key e₀ he₀ (hentry _ ▸ hfile) fun ref href r hr htarget => ?_
    rw [hname₀]
    refine hroots ref ?_ r ?_ htarget
    · rw [hkeeps.roots]
      exact href
    · rw [reference?, hreferences]
      exact hr

theorem wellNamed_of_searchAndSplice (hopened : Opened world s o)
    (h : s.searchAndSplice world o requests external clean = (s', .ok (orders, spliced))) :
    s'.WellNamed o := by
  obtain ⟨found, own, hfound, harrayed, -⟩ := arrayed_of_searchAndSplice hopened h
  obtain ⟨last, hsteps, -, rfl⟩ := exists_steps_of_search hfound
  exact (wellNamed_harvest hopened hsteps).of_keeps harrayed.keeps harrayed.references

/-- **No name is in the block twice.** -/
theorem WellNamed.nodup_emitted (h : s.WellNamed o) (honce : (s.blockKeys orders).Nodup) :
    ((s.blockKeys orders).map s.newNameOf).Nodup := by
  refine honce.map_on fun key hkey key' hkey' hname => ?_
  obtain ⟨e, he⟩ := Option.isSome_iff_exists.mp (of_mem_blockKeys hkey).2
  obtain ⟨e', he'⟩ := Option.isSome_iff_exists.mp (of_mem_blockKeys hkey').2
  rw [newNameOf_of_graft? he, newNameOf_of_graft? he'] at hname
  exact h.apart key key' e e' he he' hname

/-- A declaration is in the block exactly if its name is. -/
theorem WellNamed.mem_emitted_iff (h : s.WellNamed o) (he : s.graft? key = some e) :
    e.newName ∈ (s.blockKeys orders).map s.newNameOf ↔ key ∈ s.blockKeys orders := by
  constructor
  · intro hmem
    obtain ⟨key', hkey', hname⟩ := List.mem_map.mp hmem
    obtain ⟨e', he'⟩ := Option.isSome_iff_exists.mp (of_mem_blockKeys hkey').2
    rw [newNameOf_of_graft? he'] at hname
    rw [h.apart key key' e e' he he' hname.symm]
    exact hkey'
  · intro hkey
    rw [← newNameOf_of_graft? he]
    exact List.mem_map_of_mem hkey

/-! ### Three kinds of declarations -/

/-- **An interface that is only there to be merged** into others. -/
theorem mem_idleInterfaces_iff : key ∈ s.idleInterfaces orders clean ↔
    clean.interfaces = true ∧ ∃ e, (key, e) ∈ s.grafts ∧ s.stays orders e.declaration = true ∧
      e.declaration.isInterface = true ∧ key ∉ orders.blockOrder ∧ key ∉ s.requestedKeys ∧
      0 < s.inherits.inDegree key ∧ s.dependencies.inDegree key = 0 := by
  unfold idleInterfaces
  cases hclean : clean.interfaces with
  | false => simp
  | true => simp [and_assoc]

/-- An alias or an interface of the script that was found under its key. -/
structure Own (s : Harvest) (key : Key) (e : Graft) : Prop where
  graft : s.graft? key = some e
  key_eq : e.declaration.key = key
  entry : s.isEntryFile key.file = true
  plain : e.declaration.isEnumeration = false

namespace Own

variable (h : s.Own key e)
include h

theorem entryFile : s.isEntryFile e.declaration.file = true := by
  rw [show e.declaration.file = key.file from congrArg Key.file h.key_eq]
  exact h.entry

theorem moved_iff : s.moved orders e.declaration = true ↔
    e.declaration.isInterface = true ∧ key ∈ orders.blockOrder ∧
      0 < s.inherits.outDegree key := by
  rw [moved, absorbsParents, h.key_eq, h.entryFile]
  simp only [Bool.true_and, Bool.and_eq_true, decide_eq_true_eq, List.contains_iff_mem]
  tauto

theorem stays_eq : s.stays orders e.declaration = !s.moved orders e.declaration := by
  rw [stays, h.entryFile, h.plain, Bool.not_false, Bool.true_and, Bool.true_and]

/-- It goes into the block if it is moved there. -/
theorem mem_blockKeys_iff : key ∈ s.blockKeys orders ↔ s.moved orders e.declaration = true := by
  rw [blockKeys, List.mem_filter, h.graft]
  dsimp only
  rw [h.stays_eq, Bool.not_not]
  exact and_iff_right_of_imp fun hmoved => (h.moved_iff.mp hmoved).2.1

theorem editsOf_of_erased (hgone : key ∈ s.idleInterfaces orders clean ∨ key ∈ s.blockKeys orders) :
    s.editsOf orders clean o e = [erasure clean o.source e.declaration.statement] := by
  rw [h.mem_blockKeys_iff] at hgone
  rw [editsOf, declarationEdits, h.key_eq, if_pos]
  rwa [Bool.or_eq_true, List.contains_iff_mem]

theorem editsOf_of_kept (hidle : key ∉ s.idleInterfaces orders clean)
    (hblock : key ∉ s.blockKeys orders) : s.editsOf orders clean o e =
      e.replacements ++ s.renamedParents (s.blockKeys orders) e.declaration := by
  rw [h.mem_blockKeys_iff] at hblock
  rw [editsOf, declarationEdits, h.key_eq, if_neg, if_pos]
  · rw [h.stays_eq, Bool.not_eq_true _ |>.mp hblock, Bool.not_false]
  · rw [Bool.or_eq_true, List.contains_iff_mem]
    exact fun hgone => hgone.elim hidle hblock

end Own

/-- An enumeration is never written where it stands. -/
theorem Sited.editsOf_of_enumeration (h : s.Sited o requests) (he : s.graft? key = some e)
    (hd : e.declaration.isEnumeration = true) : s.editsOf orders clean o e = [] := by
  have hstays : s.stays orders e.declaration = false := by
    rw [stays, hd, Bool.not_true, Bool.and_false, Bool.false_and]
  have hmoved : s.moved orders e.declaration = false := by
    have hinterface : e.declaration.isInterface = false := by
      unfold Declaration.isEnumeration at hd
      unfold Declaration.isInterface
      split at hd
      · next hshape => rw [hshape]
      · exact absurd hd (by simp)
    rw [moved, absorbsParents, hinterface, Bool.and_false, Bool.false_and, Bool.and_false]
  have hidle : key ∉ s.idleInterfaces orders clean := by
    intro hidle
    obtain ⟨-, e', hmem, hstays', -⟩ := mem_idleInterfaces_iff.mp hidle
    obtain rfl := Option.some.inj (he.symm.trans (Table.get?_of_mem h.once hmem))
    rw [hstays] at hstays'
    exact absurd hstays' (by simp)
  rw [editsOf, declarationEdits, (h.declared key e he).2, hmoved, hstays, if_neg, if_neg]
  · simp
  · rw [Bool.or_false, List.contains_iff_mem]
    exact hidle

/-! ### What touches a statement -/

/-- **What the script gets written at one declaration** is in its slots. -/
theorem Sited.nonempty_kept (h : s.Sited o requests) (hclauses : s.Clauses)
    (he : s.graft? key = some e) {inBlock : List Key}
    (hx : x ∈ e.replacements ++ s.renamedParents inBlock e.declaration) :
    x.span.start < x.span.stop ∧
      (x.span.In e.declaration.body ∨ ∃ base ∈ e.declaration.bases, x.span.In base.span) := by
  obtain ⟨hrow, hlong⟩ := h.row_standing he
  obtain ⟨o', ho', hlaid, -⟩ := h.exists_outline he
  rcases List.mem_append.mp hx with hx | hx
  · obtain ⟨-, hplaces⟩ := h.pairwise_written hrow
    have hwritten : x ∈ s.written (some key) := by
      rw [written, he]
      exact hx
    obtain ⟨o₁, -, hinside⟩ := (h.replacements he).2
    exact ⟨hlong _ (hplaces x hwritten), (hinside x hx).2.2⟩
  · obtain ⟨clause, hclause, hspan, -⟩ := (s.renamedParents_spec inBlock e.declaration).2 x hx
    obtain ⟨hbases, hnames⟩ := hclauses.heritages he (h.declared key e he).2
    obtain ⟨r, hr, howner, -, -, -, hslot⟩ := hnames clause hclause
    have hbase : clause.1 ∈ e.declaration.bases := by
      rw [← hbases]
      exact List.mem_map_of_mem hclause
    have hstands : clause.1.slot ∈ (s.standing (some key)).filterMap (·.span) :=
      List.mem_filterMap.mpr ⟨r.bare, List.mem_filter.mpr
        ⟨List.mem_map_of_mem (List.mem_of_getElem? hr), decide_eq_true howner⟩, hslot⟩
    rw [hspan]
    exact ⟨hlong _ hstands, Or.inr ⟨clause.1, hbase, (hlaid.slot hbase).1⟩⟩

/-- What is erased covers the statement. -/
theorem in_erasure {source : Bytes} {a : Span} (ha : a.Cuts source) (clean : Cleaning) :
    a.In (erasure clean source a).span := by
  rcases erasure_eq_or source a clean with heq | heq
  · rw [heq]
    exact ⟨le_refl _, ha.inside.2.1, le_refl _⟩
  · rw [heq]
    exact ha.in_widened

/-- A declaration with a first word is not empty. -/
theorem start_lt_stop {source : Bytes} {d : Declaration} (hlaid : d.Laid source)
    (hopened : d.Opened source) (hd : d.isEnumeration = false) :
    d.statement.start < d.statement.stop := by
  obtain ⟨-, hrange, hstop⟩ := hlaid.body
  have hbehind := hopened.behind hd
  omega

/-- **No slot covers the statement** of its declaration: one in the body stands behind the first
word, and one of a base stands before the body. -/
theorem not_contains_statement {source : Bytes} {d : Declaration} {a : Span}
    (hlaid : d.Laid source) (hopened : d.Opened source) (hd : d.isEnumeration = false)
    (ha : a.In d.body ∨ ∃ base ∈ d.bases, a.In base.span) : a.contains d.statement = false := by
  have hbehind := hopened.behind hd
  obtain ⟨-, hrange, hstop⟩ := hlaid.body
  rw [Span.contains, Bool.and_eq_false_iff, decide_eq_false_iff_not, decide_eq_false_iff_not]
  rcases ha with ha | ⟨base, hbase, ha⟩
  · refine Or.inl ?_
    have hstart := ha.1
    omega
  · have hmembers : d.hasMembers = true := by
      refine Declaration.hasMembers_of_isInterface ?_
      unfold Declaration.bases at hbase
      unfold Declaration.isInterface
      split at hbase
      · rfl
      · exact absurd hbase List.not_mem_nil
    obtain ⟨rest, hrest⟩ := hopened.braced hmembers
    have hcontent := hlaid.content.resolve_right (by rw [hd]; simp)
    have hlength : ((d.body.slice source).length : Int) = d.body.stop - d.body.start :=
      Span.length_slice hlaid.copied.inside.1 hrange hlaid.copied.inside.2.2
    rw [← hcontent, hrest, List.length_cons] at hlength
    have hahead : base.span.stop ≤ d.body.start := hlaid.ahead base hbase
    have hlast := ha.2.2
    refine Or.inr ?_
    omega

section Entry

variable {stmts : List Node} (h : s.Sited o requests) (hclauses : s.Clauses)
  (hentry : s.entry = some o.path) (ho : s.files.get? o.path = some o)
  (hstmts : Statements o requests stmts)
include h hclauses hentry ho hstmts

/-- **An edit belongs to a declaration**, or it does not meet the statement of it. -/
theorem Sited.mem_editsOf_or_apart {name : String} {d : Declaration}
    (hd : o.declarations.get? name = some d) (hx : x ∈ s.edits orders clean) :
    (∃ e, s.graft? ⟨o.path, name⟩ = some e ∧ x ∈ s.editsOf orders clean o e) ∨
      x.span.Apart d.statement := by
  have hspaced := hstmts.spaced
  have hstatement := (hspaced.laid name d hd).statement
  rcases (mem_edits_iff hentry ho).mp hx with hx | ⟨key, e, hmem, hfile, hx⟩ | ⟨stmt, hstmt, hx⟩
  · obtain ⟨-, stmt, hstmt, hin, hasks⟩ := (h.pairwise_rootEdits hstmts).2 x hx
    exact Or.inr ((hstmts.clear hstmt hasks (hspaced.declaration name d hd)).apart
      (hin.trans (hstmts.cuts stmt hstmt).in_widened) hstatement.in_widened)
  · obtain ⟨he, hpath, hdeclared⟩ := h.of_isEntryFile hentry ho hmem hfile
    by_cases hname : key.name = name
    · refine Or.inl ⟨e, ?_, hx⟩
      rw [← hname, ← hpath]
      exact he
    · exact Or.inr ((hspaced.apart _ _ _ _ hdeclared hd hname).apart
        ((h.pairwise_editsOf hclauses ho he hpath).2 x hx).inside hstatement.in_widened)
  · obtain ⟨node, hnode, hspan, -⟩ := hspaced.import_ stmt hstmt
    have hedits := editsStatement_of_trimmed? (hspan ▸ hstmts.cuts node hnode) hx
    exact Or.inr ((hspaced.between name d hd stmt hstmt).symm.apart hedits.inside
      hstatement.in_widened)

omit hclauses hstmts in
/-- The declarations of the script that were found are among those that the scan listed. -/
theorem Own.declared (hown : s.Own key e) :
    key = ⟨o.path, key.name⟩ ∧ o.declarations.get? key.name = some e.declaration := by
  have hfile : key.file = o.path := by
    have hfile := hown.entry
    rw [isEntryFile, hentry, beq_iff_eq] at hfile
    exact (Option.some.inj hfile).symm
  obtain ⟨hdeclared, -⟩ := h.declared key e hown.graft
  rw [declaration?, hfile, ho] at hdeclared
  refine ⟨?_, hdeclared⟩
  rw [← hfile]

/-- The edits of a declaration touch its statement. -/
theorem Own.touches (hown : s.Own key e) (hopened : e.declaration.Opened o.source)
    (hx : x ∈ s.editsOf orders clean o e) :
    x.span.start < x.span.stop ∧ x.span.overlaps e.declaration.statement = true := by
  obtain ⟨-, hdeclared⟩ := hown.declared h hentry ho
  have hlaid := hstmts.spaced.laid _ _ hdeclared
  have hlong := start_lt_stop hlaid hopened hown.plain
  by_cases hgone : key ∈ s.idleInterfaces orders clean ∨ key ∈ s.blockKeys orders
  · rw [hown.editsOf_of_erased hgone, List.mem_singleton] at hx
    obtain ⟨hstart, hrange, hstop⟩ := in_erasure hlaid.statement clean
    rw [hx, Span.overlaps, Bool.and_eq_true, decide_eq_true_eq, decide_eq_true_eq]
    omega
  · obtain ⟨hidle, hblock⟩ := not_or.mp hgone
    rw [hown.editsOf_of_kept hidle hblock] at hx
    obtain ⟨hnonempty, hin⟩ := h.nonempty_kept hclauses hown.graft hx
    obtain ⟨-, o', -, hplaces⟩ := h.pairwise_kept hclauses hown.graft (s.blockKeys orders)
    exact ⟨hnonempty, (hplaces x hx).2.overlaps hnonempty⟩

/-- **What touches the statement of a declaration** are its own edits, each once. -/
theorem Sited.touching_perm (hown : s.Own key e) (hopened : e.declaration.Opened o.source) :
    ((s.edits orders clean).filter fun x => x.span.overlaps e.declaration.statement).Perm
      (s.editsOf orders clean o e) := by
  obtain ⟨hkey, hdeclared⟩ := hown.declared h hentry ho
  have hfile : key.file = o.path := congrArg Key.file hkey
  have htouches : ∀ x ∈ s.editsOf orders clean o e, x.span.start < x.span.stop ∧
      x.span.overlaps e.declaration.statement = true := fun x hx =>
    hown.touches h hclauses hentry ho hstmts hopened hx
  have hmem : ∀ x ∈ s.edits orders clean, x.span.overlaps e.declaration.statement = true →
      x ∈ s.editsOf orders clean o e := by
    intro x hx hoverlaps
    rcases h.mem_editsOf_or_apart hclauses hentry ho hstmts hdeclared hx with ⟨e', he', hx⟩ | hapart
    · rw [← hkey, hown.graft] at he'
      rw [Option.some.inj he']
      exact hx
    · rw [hapart.not_overlaps] at hoverlaps
      exact absurd hoverlaps (by simp)
  -- edits that do not meet differ, unless they are empty
  have hne : ∀ {a b : Replacement}, a ∈ s.editsOf orders clean o e → a.span.Apart b.span →
      a ≠ b := by
    rintro a b ha hapart rfl
    have hlong := (htouches a ha).1
    rcases hapart with hbefore | hbefore
    · exact absurd (hlong.trans_le hbefore) (lt_irrefl _)
    · exact absurd (hlong.trans_le hbefore) (lt_irrefl _)
  obtain ⟨hraw, hcuts⟩ := h.pairwise_rawEdits hclauses hentry ho hstmts
  refine (List.perm_ext_iff_of_nodup ?_ ?_).mpr fun x => ?_
  · rw [edits_eq hentry ho]
    refine List.Pairwise.imp_of_mem (fun {a b} ha _ hbefore => ?_)
      ((editable_inOrder hraw hcuts).apart.filter _)
    obtain ⟨ha, hoverlaps⟩ := List.mem_filter.mp ha
    exact hne (hmem a (by rwa [edits_eq hentry ho]) hoverlaps) hbefore.apart
  · exact (h.pairwise_editsOf hclauses ho hown.graft hfile).1.imp_of_mem fun ha _ hapart =>
      hne ha hapart
  · rw [List.mem_filter]
    constructor
    · exact fun hx => hmem x hx.1 hx.2
    · intro hx
      refine ⟨(mem_edits_iff hentry ho).mpr (Or.inr (Or.inl ⟨key, e, Table.mem_of_get? hown.graft,
        hown.entryFile, hx⟩)), (htouches x hx).2⟩

end Entry

/-! ### Once, here or there -/

/-- **An interface that went into the block.** -/
structure Hoisted (s : Harvest) (orders : Orders) (spliced : Splice) (key : Key) (e : Graft) :
    Prop where
  block : (s.blockKeys orders).count key = 1
  /-- It goes by its own name, and nothing else does. -/
  name : e.newName = key.name
  once : spliced.emitted.count key.name = 1
  /-- One edit takes all of its statement away, and no other edit touches that. -/
  removed : ∃ x, spliced.touching e.declaration.statement = [x] ∧ x.text = "" ∧
    e.declaration.statement.In x.span

/-- **A declaration that stays where it is.** -/
structure Remains (s : Harvest) (orders : Orders) (spliced : Splice) (key : Key) (e : Graft) :
    Prop where
  block : key ∉ s.blockKeys orders
  name : key.name ∉ spliced.emitted
  /-- No edit covers its statement. -/
  place : ∀ x ∈ spliced.edits, x.span.contains e.declaration.statement = false
  /-- What is edited in it are its slots and the names of its bases. -/
  edits : (spliced.touching e.declaration.statement).Perm
    (e.replacements ++ s.renamedParents (s.blockKeys orders) e.declaration)
  /-- A slot is filled with what its reference was resolved to. -/
  slots : e.replacements.Perm (s.fillings (some key))

/-- **What becomes of an alias or an interface of the script.** -/
structure Accounted (s : Harvest) (orders : Orders) (spliced : Splice) (key : Key) (e : Graft) :
    Prop where
  block_iff_removed : key ∈ s.blockKeys orders ↔
    ∃ x ∈ spliced.edits, x.text = "" ∧ x.span.contains e.declaration.statement = true
  block_iff : key ∈ s.blockKeys orders ↔ e.declaration.isInterface = true ∧
    key ∈ orders.blockOrder ∧ 0 < s.inherits.outDegree key
  hoisted : key ∈ s.blockKeys orders → s.Hoisted orders spliced key e
  remains : key ∉ s.blockKeys orders → s.Remains orders spliced key e

/-- What is left of a session with a script, when all is spliced. -/
structure Spliced (s : Harvest) (o : Outline) (requests : List RootRequest) (orders : Orders)
    (clean : Cleaning) (spliced : Splice) : Prop where
  sited : s.Sited o requests
  clauses : s.Clauses
  entry : s.entry = some o.path
  file : s.files.get? o.path = some o
  statements : ∃ stmts, Statements o requests stmts
  opened : o.Opened
  named : s.WellNamed o
  once : (s.blockKeys orders).Nodup
  edits : spliced.edits = s.edits orders clean
  emitted : spliced.emitted = (s.blockKeys orders).map s.newNameOf

theorem spliced_of_session (hsession : ParsedSession world s o requests external)
    (h : s.searchAndSplice world o requests external clean = (s', .ok (orders, spliced)))
    {file : String} (hfile : s'.isEntryFile file = true) :
    s'.Spliced o requests orders clean spliced := by
  have hopened := hsession.session.opened
  obtain ⟨found, hfound, rfl, hsplice⟩ := exists_search_of_searchAndSplice h
  obtain ⟨⟨grafts, events, heq⟩, hnames, hemitted, -⟩ := exists_splice hsplice
  have hentry : s.entry = some o.path := by
    rcases hopened.unsearched.entry with ⟨hopen, -⟩ | ⟨hopen, -⟩
    · have hchanges := (searching_of_search hopened hfound).2
      have hnone : s'.entry = none := by
        rw [heq]
        exact hchanges.entry.trans (by rw [begun_eq hopened.unsearched]; exact hopen)
      rw [isEntryFile, hnone] at hfile
      exact absurd hfile (by simp)
    · exact hopen
  obtain ⟨hentry', hfile', -⟩ := entry_of_searchAndSplice hopened hentry h
  have hself : s'.SelfContained found.orders.2 clean :=
    (arranged_of_searchAndSplice hopened h).selfContained
  exact {
    sited := (sited_of_search hsession.session hfound).ordered.splice hsplice
    clauses := (clauses_of_search hopened hfound).of_eq hnames (by rw [heq]; rfl) (by rw [heq]; rfl)
    entry := hentry'
    file := hfile'
    statements := hsession.session.exists_statements hentry
    opened := opened_of_isParsed hsession.parsed
    named := wellNamed_of_searchAndSplice hopened h
    once := hself.once
    edits := edits_of_splice hsplice
    emitted := hemitted }

namespace Spliced

variable (h : s.Spliced o requests orders clean spliced)
include h

/-- What touches the statement of a declaration. -/
theorem touching (hown : s.Own key e) : e.declaration.Laid o.source ∧
    e.declaration.Opened o.source ∧
    (spliced.touching e.declaration.statement).Perm (s.editsOf orders clean o e) := by
  obtain ⟨stmts, hstmts⟩ := h.statements
  obtain ⟨-, hdeclared⟩ := hown.declared h.sited h.entry h.file
  have hopened := h.opened _ _ hdeclared
  refine ⟨hstmts.spaced.laid _ _ hdeclared, hopened, ?_⟩
  rw [Splice.touching, h.edits]
  exact h.sited.touching_perm h.clauses h.entry h.file hstmts hown hopened

theorem hoisted (hown : s.Own key e) (hblock : key ∈ s.blockKeys orders) :
    s.Hoisted orders spliced key e := by
  obtain ⟨hlaid, -, hperm⟩ := h.touching hown
  have hname := h.named.own key e hown.graft hown.entry hown.plain
  have hemitted : key.name ∈ (s.blockKeys orders).map s.newNameOf := by
    rw [← hname]
    exact (h.named.mem_emitted_iff hown.graft).mpr hblock
  rw [hown.editsOf_of_erased (Or.inr hblock), List.perm_singleton] at hperm
  exact {
    block := List.count_eq_one_of_mem h.once hblock
    name := hname
    once := by
      rw [h.emitted]
      exact List.count_eq_one_of_mem (h.named.nodup_emitted h.once) hemitted
    removed := ⟨_, hperm, rfl, in_erasure hlaid.statement clean⟩ }

theorem remains (hown : s.Own key e) (hidle : key ∉ s.idleInterfaces orders clean)
    (hblock : key ∉ s.blockKeys orders) : s.Remains orders spliced key e := by
  obtain ⟨hlaid, hopened, hperm⟩ := h.touching hown
  have hname := h.named.own key e hown.graft hown.entry hown.plain
  rw [hown.editsOf_of_kept hidle hblock] at hperm
  exact {
    block := hblock
    name := by
      rw [h.emitted, ← hname, h.named.mem_emitted_iff hown.graft]
      exact hblock
    place := by
      intro x hx
      by_cases hoverlaps : x.span.overlaps e.declaration.statement = true
      · have htouches := hperm.mem_iff.mp (List.mem_filter.mpr ⟨hx, hoverlaps⟩)
        exact not_contains_statement hlaid hopened hown.plain
          (h.sited.nonempty_kept h.clauses hown.graft htouches).2
      · -- what covers a statement touches it
        refine Bool.eq_false_iff.mpr fun hcontains => hoverlaps ?_
        exact Span.overlaps_of_contains hcontains (start_lt_stop hlaid hopened hown.plain)
    edits := hperm
    slots := by
      have hwritten := h.sited.filledOnce (some key)
      rw [written, hown.graft] at hwritten
      exact hwritten }

theorem accounted (hown : s.Own key e) (hidle : key ∉ s.idleInterfaces orders clean) :
    s.Accounted orders spliced key e := by
  refine ⟨?_, ?_, h.hoisted hown, h.remains hown hidle⟩
  · constructor
    · intro hblock
      obtain ⟨x, hx, htext, hin⟩ := (h.hoisted hown hblock).removed
      have hmem : x ∈ spliced.touching e.declaration.statement := by
        rw [hx]
        exact List.mem_singleton_self x
      exact ⟨x, (List.mem_filter.mp hmem).1, htext, hin.contains⟩
    · rintro ⟨x, hx, -, hcontains⟩
      by_contra hblock
      rw [(h.remains hown hidle hblock).place x hx] at hcontains
      exact absurd hcontains (by simp)
  · rw [hown.mem_blockKeys_iff, hown.moved_iff]

/-- **An enumeration** is left alone, and goes by a name of its own. -/
theorem enumeration {name : String} {d : Declaration} (hd : o.declarations.get? name = some d)
    (henumeration : d.isEnumeration = true) : (∀ x ∈ spliced.edits, x.span.Apart d.statement) ∧
      ∀ e, s.graft? ⟨o.path, name⟩ = some e → ⟨o.path, name⟩ ∈ s.blockKeys orders →
        spliced.emitted.count e.newName = 1 ∧
        ∀ other d', o.declarations.get? other = some d' → d'.isEnumeration = false →
          e.newName ≠ other := by
  obtain ⟨stmts, hstmts⟩ := h.statements
  have hgraft : ∀ e, s.graft? ⟨o.path, name⟩ = some e →
      e.declaration.isEnumeration = true := by
    intro e he
    have hdeclared := (h.sited.declared _ e he).1
    rw [declaration?, h.file, Option.bind_some, hd] at hdeclared
    rw [← Option.some.inj hdeclared]
    exact henumeration
  constructor
  · intro x hx
    rw [h.edits] at hx
    rcases h.sited.mem_editsOf_or_apart h.clauses h.entry h.file hstmts hd hx with
      ⟨e, he, hx⟩ | hapart
    · rw [h.sited.editsOf_of_enumeration he (hgraft e he)] at hx
      exact absurd hx List.not_mem_nil
    · exact hapart
  · intro e he hblock
    refine ⟨?_, fun other d' hother hplain hname => ?_⟩
    · rw [h.emitted]
      exact List.count_eq_one_of_mem (h.named.nodup_emitted h.once)
        ((h.named.mem_emitted_iff he).mpr hblock)
    · have hentry : s.isEntryFile o.path = true := by
        rw [isEntryFile, h.entry, beq_self_eq_true]
      have hkey := h.named.reserved hentry other d' hother hplain _ e he hname
      rw [← (Key.mk.inj hkey).2, hd] at hother
      rw [← Option.some.inj hother, henumeration] at hplain
      exact absurd hplain (by simp)

end Spliced

/-- **Each declaration of the script is written once.** Of the aliases and interfaces that were
found, and that are not cleaned away, the block has those interfaces that take in bases; all others
stay where they are. The enumerations of the script are not touched. -/
theorem accounted_of_session (hsession : ParsedSession world s o requests external)
    (h : s.searchAndSplice world o requests external clean = (s', .ok (orders, spliced))) :
    spliced.emitted = (s'.blockKeys orders).map s'.newNameOf ∧
    (∃ bodies, s'.block bodies (s'.blockKeys orders) = .ok spliced.block) ∧
    (∀ key e, s'.Own key e → key ∉ s'.idleInterfaces orders clean →
      s'.Accounted orders spliced key e) ∧
    (s'.isEntryFile o.path = true → ∀ name d, o.declarations.get? name = some d →
      d.isEnumeration = true → (∀ x ∈ spliced.edits, x.span.Apart d.statement) ∧
      ∀ e, s'.graft? ⟨o.path, name⟩ = some e → ⟨o.path, name⟩ ∈ s'.blockKeys orders →
        spliced.emitted.count e.newName = 1 ∧
        ∀ other d', o.declarations.get? other = some d' → d'.isEnumeration = false →
          e.newName ≠ other) := by
  obtain ⟨found, hfound, rfl, hsplice⟩ := exists_search_of_searchAndSplice h
  obtain ⟨-, -, hemitted, own, -, hblock⟩ := exists_splice hsplice
  refine ⟨hemitted, ⟨_, hblock⟩, ?_, ?_⟩
  · intro key e hown hidle
    exact (spliced_of_session hsession h hown.entry).accounted hown hidle
  · intro hentry name d hd henumeration
    exact (spliced_of_session hsession h hentry).enumeration hd henumeration

/-- Whether an alias or an interface of the script was found under a key. -/
def hasOwn (s : Harvest) (key : Key) : Bool :=
  (s.graft? key).any fun e => decide (e.declaration.key = key) && s.isEntryFile key.file &&
    !e.declaration.isEnumeration

theorem exists_of_hasOwn (h : s.hasOwn key = true) : ∃ e, s.Own key e := by
  obtain ⟨e, he, h⟩ := (Option.any_eq_true _ _).mp h
  obtain ⟨h, hplain⟩ := Bool.and_eq_true_iff.mp h
  obtain ⟨hkey, hentry⟩ := Bool.and_eq_true_iff.mp h
  exact ⟨e, he, of_decide_eq_true hkey, hentry, Bool.not_eq_true' _ |>.mp hplain⟩

end Harvest

/-! ### An enumeration, an alias and an interface -/

/-- A script that declares all three, and asks for the interface. -/
def threeKinds : String :=
  "\nimport \x7b B, Id \x7d from './b'\nenum E \x7b X \x7d\ntype Own = Id[]\n" ++
    "interface P extends B \x7b own: Own; e: E[] \x7d\ndefineProps<P>()\n"

set_option maxRecDepth 100000 in
/-- The interface goes into the block, the alias gets a slot filled, and the enumeration is left
alone. -/
theorem Harvest.accounted_of_session_threeKinds :
    ∃ run : Inlining World.baseModule .standard false "/w/App.vue" (componentOf threeKinds),
      run.splice.edits = [⟨⟨1, 28⟩, ""⟩, ⟨⟨53, 55⟩, "_INLINE_Id"⟩, ⟨⟨58, 100⟩, ""⟩] ∧
      run.splice.emitted = ["_INLINE_Id", "_INLINE_E_0", "P"] ∧
      (∃ e, run.ended.Own ⟨"/w/App.vue", "P"⟩ e ∧
        run.ended.Hoisted run.orders run.splice ⟨"/w/App.vue", "P"⟩ e) ∧
      (∃ e, run.ended.Own ⟨"/w/App.vue", "Own"⟩ e ∧
        run.ended.Remains run.orders run.splice ⟨"/w/App.vue", "Own"⟩ e) ∧
      ∃ d, run.outline.declarations.get? "E" = some d ∧ d.isEnumeration = true ∧
        ∀ x ∈ run.splice.edits, x.span.Apart d.statement := by
  have helement : ScriptElement.setup? (componentOf threeKinds) = some (elementOf threeKinds) :=
    ScriptElement.setup?_componentOf (by decide +kernel)
  obtain ⟨run, hexpected, -⟩ := Inlining.exists_of_comesTo helement
    (show Inlining.comesTo World.baseModule .standard false "/w/App.vue" (componentOf threeKinds)
      (elementOf threeKinds) (fun _ outline ended orders spliced _ =>
        decide (spliced.edits = [⟨⟨1, 28⟩, ""⟩, ⟨⟨53, 55⟩, "_INLINE_Id"⟩, ⟨⟨58, 100⟩, ""⟩]) &&
        decide (spliced.emitted = ["_INLINE_Id", "_INLINE_E_0", "P"]) &&
        (ended.hasOwn ⟨"/w/App.vue", "P"⟩ && ended.hasOwn ⟨"/w/App.vue", "Own"⟩) &&
        (decide (⟨"/w/App.vue", "P"⟩ ∈ ended.blockKeys orders) &&
          decide (⟨"/w/App.vue", "Own"⟩ ∉ ended.blockKeys orders)) &&
        (ended.isEntryFile outline.path &&
          (outline.declarations.get? "E").any (·.isEnumeration))) = true by
      decide +kernel)
  simp only [Bool.and_eq_true, decide_eq_true_eq] at hexpected
  obtain ⟨⟨⟨⟨hedits, hemitted⟩, hown, hown'⟩, hmoved, hkept⟩, hentry, henumeration⟩ := hexpected
  obtain ⟨-, -, haccounted, hleft⟩ := Harvest.accounted_of_session run.session run.ends
  obtain ⟨e, he⟩ := Harvest.exists_of_hasOwn hown
  obtain ⟨e', he'⟩ := Harvest.exists_of_hasOwn hown'
  obtain ⟨d, hd, henumeration⟩ := (Option.any_eq_true _ _).mp henumeration
  exact ⟨run, hedits, hemitted,
    ⟨e, he, (haccounted _ e he List.not_mem_nil).hoisted hmoved⟩,
    ⟨e', he', (haccounted _ e' he' List.not_mem_nil).remains hkept⟩,
    d, hd, henumeration, (hleft hentry "E" d hd henumeration).1⟩

end TypeGraft
