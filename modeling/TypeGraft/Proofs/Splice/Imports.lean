import TypeGraft.Proofs.Outline.Imports
import TypeGraft.Proofs.Resolution.Scope
import TypeGraft.Proofs.Splice.Hoisting

/-!
# What becomes of the imports of the script

An import statement of the script loses the names that the block declares now, and no others
(`TypeGraft.Harvest.imports_of_session`). It is left alone if it loses none, it is removed if
nothing is left of what it brings in, and otherwise it is written anew with what is left, in the
order in which it stood (`TypeGraft.Import.TrimmedBy`).

* **A name is dropped** if its declaration was found, is no enumeration, and is not still named as a
  base where an interface stands (`TypeGraft.Harvest.Dropped`).
* **A name was found** exactly if a reference of the script to that name is resolved. So a name
  whose references all stayed unresolved is kept.
* **The name for a whole module** is never dropped.
-/

namespace TypeGraft

open Syntax

/-! ### One statement -/

namespace Import

variable {stmt : Import} {drop : String → Bool}

/-- **An import statement written anew**: the default import, the name for the whole module and the
names in braces, as far as there are any. -/
def text (i : Import) : String :=
  let braces := if i.named.isEmpty then []
    else ["\x7b " ++ String.intercalate ", " (i.named.map (·.2)) ++ " \x7d"]
  "import " ++ (if i.typeOnly then "type " else "") ++
    String.intercalate ", " ((i.default.map (·.name)).toList ++ i.wholeModule.toList ++ braces) ++
    " from " ++ i.quotedModule ++ (if i.terminated then ";" else "")

/-- **What becomes of an import statement** when some names are dropped, as the edits that touch
it. -/
structure TrimmedBy (drop : String → Bool) (stmt : Import) (edits : List Replacement) : Prop where
  /-- It is left alone if it loses nothing. -/
  untouched_iff : edits = [] ↔ ∀ name ∈ stmt.names, drop name = false
  /-- All of it is removed if it loses all that it brings in. -/
  removed_iff : (∃ x, edits = [x] ∧ x.text = "" ∧ stmt.span.In x.span) ↔
    (∃ name ∈ stmt.names, drop name = true) ∧ (∀ name ∈ stmt.names, drop name = true) ∧
      stmt.wholeModule = none
  /-- In all other cases it is written anew, without what it loses. -/
  rewritten : (∃ name ∈ stmt.names, drop name = true) →
    (∃ name ∈ stmt.names, drop name = false) ∨ stmt.wholeModule ≠ none →
      edits = [⟨stmt.span, (stmt.without drop).text⟩]

theorem names_without_eq_iff :
    (stmt.without drop).names = stmt.names ↔ ∀ name ∈ stmt.names, drop name = false := by
  rw [names_without, List.filter_eq_self]
  simp

theorem names_without_eq_nil_iff :
    (stmt.without drop).names = [] ↔ ∀ name ∈ stmt.names, drop name = true := by
  rw [names_without, List.filter_eq_nil_iff]
  simp

theorem text_ne_empty (i : Import) : i.text ≠ "" := by
  intro h
  have hlength := congrArg String.length h
  simp [text, String.length_append] at hlength

theorem importText_without (stmt : Import) (drop : String → Bool) :
    Harvest.importText stmt (stmt.without drop).default ((stmt.without drop).named.map (·.2)) =
      (stmt.without drop).text := by
  rw [Harvest.importText, text, List.isEmpty_map]
  rfl

theorem exists_lost (h : ¬∀ name ∈ stmt.names, drop name = false) :
    ∃ name ∈ stmt.names, drop name = true := by
  simpa using h

end Import

namespace Harvest

variable {world : World} {s s' : Harvest} {o : Outline} {requests : List RootRequest}
  {external : Bool} {orders : Orders} {clean : Cleaning} {spliced : Splice} {x : Replacement}
  {stmt : Import} {name : String}

/-! ### Names that are dropped -/

/-- **A base that is still named where its interface stands**: it comes from another file, has
members, and did not go into the block. -/
structure KeptBase (s : Harvest) (orders : Orders) (clean : Cleaning) (key : Key) (e : Graft)
    (clause : Heritage × RefId) (base : Key) : Prop where
  own : s.Own key e
  stays : key ∉ s.blockKeys orders
  listed : key ∉ s.idleInterfaces orders clean
  extended : clause ∈ s.heritages e.declaration
  target : s.targetOf clause.2 = some base
  foreign : s.isEntryFile base.file = false
  members : s.hasMembers base = true
  absent : base ∉ s.blockKeys orders

/-- **A name is dropped** from the imports of the script. -/
structure Dropped (s : Harvest) (orders : Orders) (clean : Cleaning) (o : Outline) (name : String) :
    Prop where
  found : ∃ key, (s.synonyms.knownNames o.path).get? name = some key ∧
    ∀ e, s.graft? key = some e → e.declaration.isEnumeration = false
  free : ∀ key e clause base, s.KeptBase orders clean key e clause base → clause.1.name ≠ name

theorem mem_foreignParents_iff {d : Declaration} {inBlock : List Key}
    {entry : Heritage × Key × Bool} : entry ∈ s.foreignParents inBlock d ↔
      ∃ clause ∈ s.heritages d, ∃ base, s.targetOf clause.2 = some base ∧
        s.isEntryFile base.file = false ∧ s.hasMembers base = true ∧
        entry = (clause.1, base, inBlock.contains base) := by
  rw [foreignParents, List.mem_filterMap]
  refine exists_congr fun clause => and_congr_right fun _ => ?_
  rw [Option.bind_eq_some_iff]
  refine exists_congr fun base => and_congr_right fun _ => ?_
  cases s.isEntryFile base.file <;> cases s.hasMembers base <;> simp [@eq_comm _ entry]

theorem mem_keptParents_iff {d : Declaration} {inBlock : List Key} :
    name ∈ s.keptParents inBlock d ↔ ∃ clause ∈ s.heritages d, ∃ base,
      s.targetOf clause.2 = some base ∧ s.isEntryFile base.file = false ∧
      s.hasMembers base = true ∧ base ∉ inBlock ∧ clause.1.name = name := by
  rw [keptParents, List.mem_filterMap]
  constructor
  · rintro ⟨entry, hentry, hname⟩
    obtain ⟨clause, hclause, base, htarget, hforeign, hmembers, rfl⟩ :=
      mem_foreignParents_iff.mp hentry
    dsimp only at hname
    split at hname
    · exact absurd hname (by simp)
    · next habsent =>
      exact ⟨clause, hclause, base, htarget, hforeign, hmembers,
        fun hmem => habsent (List.contains_iff_mem.mpr hmem), Option.some.inj hname⟩
  · rintro ⟨clause, hclause, base, htarget, hforeign, hmembers, habsent, rfl⟩
    refine ⟨_, mem_foreignParents_iff.mpr
      ⟨clause, hclause, base, htarget, hforeign, hmembers, rfl⟩, ?_⟩
    dsimp only
    rw [if_neg fun hmem => habsent (List.contains_iff_mem.mp hmem)]

/-- **The names that are kept** are those of the bases that are still named. -/
theorem Sited.mem_keptNames_iff (h : s.Sited o requests) : name ∈ s.keptNames orders clean ↔
    ∃ key e clause base, s.KeptBase orders clean key e clause base ∧ clause.1.name = name := by
  rw [keptNames, List.mem_flatMap]
  constructor
  · rintro ⟨e, he, hname⟩
    obtain ⟨he, hplace⟩ := List.mem_filter.mp he
    obtain ⟨he, hfile⟩ := List.mem_filter.mp he
    obtain ⟨⟨key, e⟩, hmem, rfl⟩ := List.mem_map.mp he
    have hgraft : s.graft? key = some e := Table.get?_of_mem h.once hmem
    have hkey := (h.declared key e hgraft).2
    obtain ⟨hlisted, hstays⟩ := Bool.and_eq_true_iff.mp hplace
    have hown : s.Own key e := by
      refine ⟨hgraft, hkey, ?_, ?_⟩
      · rw [← hkey]
        exact hfile
      · rw [stays, Bool.and_eq_true, Bool.and_eq_true, Bool.not_eq_true'] at hstays
        exact hstays.1.2
    rw [hown.stays_eq, Bool.not_eq_true'] at hstays
    obtain ⟨clause, hclause, base, htarget, hforeign, hmembers, habsent, hname⟩ :=
      mem_keptParents_iff.mp hname
    refine ⟨key, e, clause, base, ⟨hown, ?_, ?_, hclause, htarget, hforeign, hmembers, habsent⟩,
      hname⟩
    · rw [hown.mem_blockKeys_iff, hstays]
      simp
    · rw [← hkey]
      simpa using hlisted
  · rintro ⟨key, e, clause, base, hbase, hname⟩
    have hkey := hbase.own.key_eq
    refine ⟨e, List.mem_filter.mpr ⟨List.mem_filter.mpr ⟨List.mem_map.mpr
      ⟨_, Table.mem_of_get? hbase.own.graft, rfl⟩, hbase.own.entryFile⟩, ?_⟩,
      mem_keptParents_iff.mpr ⟨clause, hbase.extended, base, hbase.target, hbase.foreign,
        hbase.members, hbase.absent, hname⟩⟩
    have hstays := hbase.stays
    rw [hbase.own.mem_blockKeys_iff] at hstays
    rw [hbase.own.stays_eq, Bool.not_eq_true _ |>.mp hstays, hkey]
    simpa using hbase.listed

theorem Sited.drops_iff (h : s.Sited o requests) :
    s.Drops orders clean o name ↔ s.Dropped orders clean o name := by
  have hkept : (s.keptNames orders clean).contains name = false ↔
      ∀ key e clause base, s.KeptBase orders clean key e clause base → clause.1.name ≠ name := by
    rw [← Bool.not_eq_true, List.contains_iff_mem, h.mem_keptNames_iff]
    exact ⟨fun hno key e clause base hbase hname => hno ⟨key, e, clause, base, hbase, hname⟩,
      fun hno ⟨key, e, clause, base, hbase, hname⟩ => hno key e clause base hbase hname⟩
  rw [Drops, drops]
  cases hknown : (s.synonyms.knownNames o.path).get? name with
  | none =>
    refine iff_of_false (by simp) fun hdropped => ?_
    obtain ⟨key, hkey, -⟩ := hdropped.found
    exact absurd (hknown.symm.trans hkey) (by simp)
  | some key =>
    dsimp only
    rw [Bool.and_eq_true, Bool.not_eq_true', hkept, Bool.not_eq_true', Option.any_eq_false]
    constructor
    · exact fun ⟨hfree, hplain⟩ => ⟨⟨key, hknown, fun e he => by simpa using hplain e he⟩, hfree⟩
    · rintro ⟨⟨key', hkey', hplain⟩, hfree⟩
      obtain rfl : key = key' := Option.some.inj (hknown.symm.trans hkey')
      exact ⟨hfree, fun e he => by simpa using hplain e he⟩

/-! ### What touches a statement -/

/-- What takes the place of a statement covers it. -/
theorem in_of_trimmed? (hcuts : stmt.span.Cuts o.source)
    (hx : s.trimmed? orders clean o stmt = some x) : stmt.span.In x.span := by
  rw [trimmed?, trimming?_eq] at hx
  dsimp only at hx
  split at hx
  · exact absurd hx (by simp)
  · split at hx
    · rw [← Option.some.inj hx]
      exact in_erasure hcuts clean
    · rw [← Option.some.inj hx]
      exact ⟨le_refl _, hcuts.inside.2.1, le_refl _⟩

/-- **A statement is trimmed** by what takes its place. -/
theorem trimmedBy_of_trimmed? (hcuts : stmt.span.Cuts o.source) {drop : String → Bool}
    (hdrop : drop = s.drops (s.synonyms.knownNames o.path) (s.keptNames orders clean)) :
    stmt.TrimmedBy drop (s.trimmed? orders clean o stmt).toList := by
  rw [trimmed?, trimming?_eq, ← hdrop]
  dsimp only
  split
  · next hnames =>
    have hsame := Import.names_without_eq_iff.mp hnames
    have hno : ¬∃ name ∈ stmt.names, drop name = true := by
      rintro ⟨name, hname, hlost⟩
      rw [hsame name hname] at hlost
      exact absurd hlost (by simp)
    refine ⟨iff_of_true rfl hsame, iff_of_false (by simp) fun h => hno h.1, fun h => absurd h hno⟩
  · next hnames =>
    have hsame := mt Import.names_without_eq_iff.mpr hnames
    have hlost := Import.exists_lost hsame
    split
    · next hgone =>
      have hall := hgone.imp_left Import.names_without_eq_nil_iff.mp
      refine ⟨iff_of_false (by simp) hsame, iff_of_true ⟨_, rfl, rfl, in_erasure hcuts clean⟩
        ⟨hlost, hall⟩, fun _ hleft => ?_⟩
      rcases hleft with ⟨name, hname, hkept⟩ | hwhole
      · rw [hall.1 name hname] at hkept
        exact absurd hkept (by simp)
      · exact absurd hall.2 hwhole
    · next hleft =>
      rw [Import.importText_without]
      refine ⟨iff_of_false (by simp) hsame, iff_of_false ?_
        fun h => hleft (h.2.imp_left Import.names_without_eq_nil_iff.mpr), fun _ _ => rfl⟩
      rintro ⟨x, hx, hempty, -⟩
      rw [← (List.singleton_inj.mp hx)] at hempty
      exact Import.text_ne_empty _ hempty

section Entry

variable {stmts : List Node} (h : s.Sited o requests) (hclauses : s.Clauses)
  (hentry : s.entry = some o.path) (ho : s.files.get? o.path = some o)
  (hstmts : Statements o requests stmts)
include h hclauses hentry ho hstmts

/-- **An edit takes the place of an import statement**, or it does not meet it. -/
theorem Sited.trimmed_or_apart (hstmt : stmt ∈ o.importList) (hx : x ∈ s.edits orders clean) :
    s.trimmed? orders clean o stmt = some x ∨ x.span.Apart stmt.span := by
  have hspaced := hstmts.spaced
  have hcuts : ∀ i ∈ o.importList, i.span.Cuts o.source := by
    intro i hi
    obtain ⟨node, hnode, hspan, -⟩ := hspaced.import_ i hi
    exact hspan ▸ hstmts.cuts node hnode
  have hwidened := (hcuts stmt hstmt).in_widened
  rcases (mem_edits_iff hentry ho).mp hx with hx | ⟨key, e, hmem, hfile, hx⟩ | ⟨other, hother, hx⟩
  · obtain ⟨-, asking, hasking, hin, hasks⟩ := (h.pairwise_rootEdits hstmts).2 x hx
    exact Or.inr ((hstmts.clear hasking hasks (hspaced.import_ stmt hstmt)).apart
      (hin.trans (hstmts.cuts asking hasking).in_widened) hwidened)
  · obtain ⟨he, hpath, hdeclared⟩ := h.of_isEntryFile hentry ho hmem hfile
    exact Or.inr ((hspaced.between _ _ hdeclared stmt hstmt).apart
      ((h.pairwise_editsOf hclauses ho he hpath).2 x hx).inside hwidened)
  · by_cases hsame : other = stmt
    · exact Or.inl (hsame ▸ hx)
    · have hsymm : Std.Symm fun i j : Import => i.span.Clear o.source j.span :=
        ⟨fun _ _ hclear => hclear.symm⟩
      exact Or.inr ((hspaced.importsApart.forall hother hstmt hsame).apart
        (editsStatement_of_trimmed? (hcuts other hother) hx).inside hwidened)

/-- **What touches an import statement** is what takes its place. -/
theorem Sited.touching_import (hstmt : stmt ∈ o.importList)
    (hlong : stmt.span.start < stmt.span.stop) :
    ((s.edits orders clean).filter fun x => x.span.overlaps stmt.span) =
      (s.trimmed? orders clean o stmt).toList := by
  obtain ⟨node, hnode, hspan, -⟩ := hstmts.spaced.import_ stmt hstmt
  have hcuts : stmt.span.Cuts o.source := hspan ▸ hstmts.cuts node hnode
  have hmem : ∀ x, x ∈ (s.edits orders clean).filter (fun x => x.span.overlaps stmt.span) ↔
      s.trimmed? orders clean o stmt = some x := by
    intro x
    rw [List.mem_filter]
    constructor
    · rintro ⟨hx, hoverlaps⟩
      refine (h.trimmed_or_apart hclauses hentry ho hstmts hstmt hx).resolve_right fun hapart => ?_
      rw [hapart.not_overlaps] at hoverlaps
      exact absurd hoverlaps (by simp)
    · intro hx
      refine ⟨(mem_edits_iff hentry ho).mpr (Or.inr (Or.inr ⟨stmt, hstmt, hx⟩)), ?_⟩
      obtain ⟨hstart, hrange, hstop⟩ := in_of_trimmed? hcuts hx
      rw [Span.overlaps, Bool.and_eq_true, decide_eq_true_eq, decide_eq_true_eq]
      omega
  -- what covers the statement is not empty, so it is not listed twice
  obtain ⟨hraw, hplaces⟩ : ((s.rawEdits orders clean o).Pairwise fun a b => a.span.Apart b.span) ∧
      ∀ x ∈ s.rawEdits orders clean o, x.span.Cuts o.source :=
    h.pairwise_rawEdits hclauses hentry ho hstmts
  have honce : ((s.edits orders clean).filter fun x => x.span.overlaps stmt.span).Nodup := by
    rw [edits_eq hentry ho]
    refine List.Pairwise.imp_of_mem (fun {a b} ha _ hbefore => ?_)
      ((editable_inOrder hraw hplaces).apart.filter _)
    rintro rfl
    rw [← edits_eq hentry ho] at ha
    obtain ⟨hstart, hrange, hstop⟩ := in_of_trimmed? hcuts ((hmem a).mp ha)
    have hempty : a.span.stop ≤ a.span.start := hbefore.apart.elim id id
    omega
  cases htrimmed : s.trimmed? orders clean o stmt with
  | none =>
    refine List.eq_nil_iff_forall_not_mem.mpr fun x hx => ?_
    exact absurd (htrimmed.symm.trans ((hmem x).mp hx)) (by simp)
  | some y =>
    refine List.perm_singleton.mp ((List.perm_ext_iff_of_nodup honce
      (List.nodup_singleton y)).mpr fun x => ?_)
    rw [hmem, htrimmed, List.mem_singleton, Option.some_inj, eq_comm]

end Entry

/-! ### All statements -/

/-- **A name of the script was found** if a reference of the script to it is resolved. -/
def Finds (s : Harvest) (o : Outline) (name : String) : Prop :=
  ∃ ref x, s.reference? ref = some x ∧ x.isResolved = true ∧ x.file = o.path ∧ x.name = name

/-- **What becomes of the imports of the script.** -/
structure TrimsImports (s : Harvest) (o : Outline) (orders : Orders) (clean : Cleaning)
    (spliced : Splice) (drop : String → Bool) : Prop where
  drop_iff : ∀ name, drop name = true ↔ s.Dropped orders clean o name
  found_iff : ∀ name, (∃ key, (s.synonyms.knownNames o.path).get? name = some key) ↔ s.Finds o name
  /-- A name whose references all stayed unresolved is kept. -/
  unresolved : ∀ name, ¬s.Finds o name → drop name = false
  /-- The statements are those of the script. -/
  read : ∃ dialect tree, Script.tree dialect o.path o.source = .ok tree ∧
    List.Forall₂ (Import.ReadFrom o.source) o.importList
      (tree.namedChildren.filter Node.importsFrom)
  trimmed : ∀ stmt ∈ o.importList, stmt.TrimmedBy drop (spliced.touching stmt.span)

theorem Spliced.trimmedBy (h : s.Spliced o requests orders clean spliced)
    (hstmt : stmt ∈ o.importList) (hlong : stmt.span.start < stmt.span.stop) :
    stmt.TrimmedBy (s.drops (s.synonyms.knownNames o.path) (s.keptNames orders clean))
      (spliced.touching stmt.span) := by
  obtain ⟨stmts, hstmts⟩ := h.statements
  obtain ⟨node, hnode, hspan, -⟩ := hstmts.spaced.import_ stmt hstmt
  rw [Splice.touching, h.edits,
    h.sited.touching_import h.clauses h.entry h.file hstmts hstmt hlong]
  exact trimmedBy_of_trimmed? (hspan ▸ hstmts.cuts node hnode) rfl

/-- **The imports of the script lose what the block declares now**, and nothing else. -/
theorem imports_of_session (hsession : ParsedSession world s o requests external)
    (h : s.searchAndSplice world o requests external clean = (s', .ok (orders, spliced)))
    (hfile : s'.isEntryFile o.path = true) :
    ∃ drop, s'.TrimsImports o orders clean spliced drop := by
  have hspliced := spliced_of_session hsession h hfile
  have hopened := hsession.session.opened
  obtain ⟨found, hfound, rfl, hsplice⟩ := exists_search_of_searchAndSplice h
  obtain ⟨⟨grafts, events, rfl⟩, -⟩ := exists_splice hsplice
  have hentry : s.entry = some o.path := by
    have hkept := (searching_of_search hopened hfound).2.entry
    rw [begun_eq hopened.unsearched] at hkept
    exact hkept.symm.trans hspliced.entry
  obtain rfl := hsession.session.external_eq hentry
  obtain ⟨dialect, strict, tree, _, htree, hscan⟩ := hsession.parsed
  have hreads := Outline.imports_ofTree htree hscan
  have hlong : ∀ stmt ∈ o.importList, stmt.span.start < stmt.span.stop :=
    ((List.forall₂_and_left _ _).mp (hreads.imp fun _ _ hread => ⟨hread.long, hread⟩)).1
  have hfound : ∀ name, (∃ key, (found.synonyms.knownNames o.path).get? name = some key) ↔
      found.Finds o name := by
    intro name
    rw [← Option.isSome_iff_exists]
    refine (isSome_get?_knownNames_iff hopened hfound o.path).trans ?_
    simp only [Finds, Reference.origin, Bool.false_and, Waypoint.mk.injEq, and_true]
  refine ⟨_, fun name => hspliced.sited.drops_iff, hfound, fun name hopen => ?_,
    ⟨dialect, tree, htree, hreads⟩, fun stmt hstmt => hspliced.trimmedBy hstmt (hlong stmt hstmt)⟩
  refine Bool.eq_false_iff.mpr fun hdrop => hopen ?_
  obtain ⟨key, hkey, -⟩ := (hspliced.sited.drops_iff.mp hdrop).found
  exact (hfound name).mp ⟨key, hkey⟩

end Harvest

/-! ### A statement of each kind -/

/-- A script with three import statements: one loses a name, one loses all, and one is not asked
for. -/
def threeImports : String :=
  "\nimport type \x7b B, Lost \x7d from './b';\nimport \x7b Id \x7d from './b'\n" ++
    "import Lone from './b'\ninterface P extends B \x7b ids: Id[]; lost: Lost[] \x7d\n" ++
    "defineProps<P>()\n"

set_option maxRecDepth 100000 in
/-- The first statement is written anew with the name that was not found, the second one is removed,
and the third one is left alone. -/
theorem Harvest.imports_of_session_threeImports :
    ∃ run : Inlining World.baseModule .standard false "/w/App.vue" (componentOf threeImports),
      run.splice.edits = [⟨⟨1, 36⟩, "import type \x7b Lost \x7d from './b';"⟩, ⟨⟨37, 61⟩, ""⟩,
        ⟨⟨85, 134⟩, ""⟩] ∧
      run.outline.importList.map (·.span) = [⟨1, 36⟩, ⟨37, 61⟩, ⟨62, 84⟩] ∧
      run.ended.isEntryFile run.outline.path = true ∧
      ∃ drop, run.ended.TrimsImports run.outline run.orders Project.standard.cleaning run.splice
        drop := by
  have helement : ScriptElement.setup? (componentOf threeImports) = some (elementOf threeImports) :=
    ScriptElement.setup?_componentOf (by decide +kernel)
  obtain ⟨run, hexpected, -⟩ := Inlining.exists_of_comesTo helement
    (show Inlining.comesTo World.baseModule .standard false "/w/App.vue" (componentOf threeImports)
      (elementOf threeImports) (fun _ outline ended _ spliced _ =>
        decide (spliced.edits = [⟨⟨1, 36⟩, "import type \x7b Lost \x7d from './b';"⟩,
          ⟨⟨37, 61⟩, ""⟩, ⟨⟨85, 134⟩, ""⟩]) &&
        decide (outline.importList.map (·.span) = [⟨1, 36⟩, ⟨37, 61⟩, ⟨62, 84⟩]) &&
        ended.isEntryFile outline.path) = true by
      decide +kernel)
  simp only [Bool.and_eq_true, decide_eq_true_eq] at hexpected
  obtain ⟨⟨hedits, hspans⟩, hentry⟩ := hexpected
  exact ⟨run, hedits, hspans, hentry, Harvest.imports_of_session run.session run.ends hentry⟩

end TypeGraft
