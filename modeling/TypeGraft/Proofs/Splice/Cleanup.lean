import TypeGraft.Files.World
import TypeGraft.Proofs.Harvest.Slots
import TypeGraft.Proofs.Inlining
import TypeGraft.Proofs.Resolution.Names
import TypeGraft.Proofs.Resolution.Walks
import TypeGraft.Proofs.Splice.Edits
import TypeGraft.Proofs.Splice.Inheritance

/-!
# Imports that are taken away

An import is taken away when what its name stands for was found. What uses the name must then need
no import any more (`TypeGraft.Harvest.Cleared`): another text was written in its place, or the
declaration that it stands in is removed, or the block declares the name. This is so for every use
that the search follows and resolves to a declaration of another file
(`TypeGraft.cleared_of_inlineTypes`). The reason is that all texts that were written for references
that are resolved are among the edits (`TypeGraft.Harvest.Filled`), except for the bases of
interfaces that stay in place, which are renamed or keep their import.

It need not be so for uses that are not followed, such as the types of the parameters of a function
(`TypeGraft.exists_leavesUnbound`).
-/

namespace TypeGraft

namespace Harvest

variable {world : World} {s s' : Harvest} {o : Outline} {orders : Orders} {clean : Cleaning}
  {requests : List RootRequest} {external : Bool} {spliced : Splice} {owner : Option Key}

/-! ### What is written in the end -/

theorem Unsearched.filledOnce (h : s.Unsearched o) (requests : List RootRequest)
    (external : Bool) : (s.begun o requests external).harvest.FilledOnce := by
  have hgrafts : s.grafts = [] := congrArg grafts h.eq
  have hedits : s.rootEdits = [] := congrArg rootEdits h.eq
  rw [begun_eq h]
  intro owner
  have hwritten : ∀ t : Harvest, t.rootEdits = [] → t.grafts = [] → t.written owner = [] := by
    intro t hroot hnone
    cases owner with
    | none => exact hroot
    | some k => rw [written, graft?, hnone]; rfl
  have hfillings : ∀ t : Harvest, t.references = rootReferences o requests →
      t.fillings owner = [] := by
    intro t hreferences
    rw [fillings, hreferences]
    refine List.filterMap_eq_nil_iff.mpr fun r hr => ?_
    rw [fillingFor, (of_mem_rootReferences hr).1]
    split <;> rfl
  exact .of_eq ((hwritten _ hedits hgrafts).trans (hfillings _ rfl).symm)

/-- **When a search is over**, each slot was filled once. -/
theorem filledOnce_of_search (hopened : Opened world s o)
    (h : s.search world o requests external = (s', .ok ())) : s'.FilledOnce := by
  have hunsearched := hopened.unsearched
  exact (hunsearched.filledOnce requests external).changes (hunsearched.linked requests external)
    (hunsearched.searching world requests external).grounded (searching_of_search hopened h).2

/-- Letting interfaces depend on more writes nothing into slots. -/
theorem written_inheritDependencies (s : Harvest) (keys : List Key) :
    (keys.foldl inheritDependencies s).written owner = s.written owner := by
  let motive : Harvest → Prop := fun s' => s'.written owner = s.written owner
  refine List.foldlRecOn keys inheritDependencies (motive := motive) rfl ?_
  intro s₁ hs₁ key _
  refine List.foldlRecOn (s₁.ancestors key) _ (motive := motive) hs₁ ?_
  intro s₂ hs₂ base _
  refine Eq.trans (written_modifyGraft s₂ key owner _ ?_) hs₂
  exact fun _ => rfl

/-- Splicing writes nothing into slots. -/
theorem written_of_splice (h : s.splice orders clean = .ok (s', spliced)) :
    s'.written owner = s.written owner := by
  unfold Harvest.splice at h
  split at h
  · exact absurd h (by simp)
  · dsimp only at h
    split at h
    · exact absurd h (by simp)
    · obtain ⟨hs, -⟩ := Prod.mk.inj (Except.ok.inj h)
      rw [← hs, ← s.written_inheritDependencies orders.absorbOrder]
      split <;> cases owner <;> rfl

/-- **When a run is over**, the slots hold what is written for the references that are resolved. -/
theorem filled_of_searchAndSplice (hopened : Opened world s o)
    (h : s.searchAndSplice world o requests external clean = (s', .ok (orders, spliced))) :
    s'.Filled := by
  obtain ⟨found, own, hfound, harrayed, -⟩ := arrayed_of_searchAndSplice hopened h
  obtain ⟨found', hfound', -, hspliced⟩ := exists_search_of_searchAndSplice h
  obtain rfl : found = found' := (Prod.mk.inj (hfound.symm.trans hfound')).1
  have hfilled := (filledOnce_of_search hopened hfound).filled
  intro owner x
  have hwritten : s'.written owner = found.written owner :=
    (written_of_splice hspliced).trans (by cases owner <;> rfl)
  rw [hwritten, hfilled owner x]
  refine exists_congr fun ref => exists_congr fun r => exists_congr fun key => ?_
  rw [reference?, reference?, harrayed.references, harrayed.keeps.filling rfl]

/-! ### Uses of a name -/

/-- **The uses of names that are followed** in the entry script: those in its requests, and those in
its declarations that were taken in. -/
inductive Follows (s : Harvest) (o : Outline) (requests : List RootRequest) (use : Reference) :
    Prop where
  | request (h : use ∈ rootReferences o requests)
  | mention {owner : Key} {e : Graft} (he : s.graft? owner = some e) (hfile : owner.file = o.path)
      (h : use ∈ mentioned o e.declaration)

/-- **A use of a name needs no import any more.** -/
inductive Cleared (s : Harvest) (o : Outline) (clean : Cleaning) (spliced : Splice)
    (use : Reference) : Prop where
  /-- Another text is written in its place. -/
  | rewritten {span : Span} {text : String} (hspan : use.span = some span)
      (h : ⟨span, text⟩ ∈ spliced.edits)
  /-- The declaration that it stands in is removed. -/
  | erased {owner : Key} {e : Graft} (howner : use.owner = some owner)
      (he : s.graft? owner = some e)
      (h : erasure clean o.source e.declaration.statement ∈ spliced.edits)
  /-- The block declares the name. -/
  | declared (h : use.name ∈ spliced.emitted)

/-- Each use that is followed has a reference. -/
theorem exists_of_follows (hopened : Opened world s o)
    (h : s.searchAndSplice world o requests external clean = (s', .ok (orders, spliced)))
    {use : Reference} (huse : s'.Follows o requests use) :
    ∃ ref r, s'.reference? ref = some r ∧ r.bare = use := by
  obtain ⟨found, own, hfound, harrayed, -⟩ := arrayed_of_searchAndSplice hopened h
  obtain ⟨hsearching, hchanges⟩ := searching_of_search hopened hfound
  have hmentions : ∀ use ∈ found.mentions, ∃ ref r, s'.reference? ref = some r ∧ r.bare = use := by
    intro use huse
    obtain ⟨r, hr, rfl⟩ := List.mem_map.mp huse
    obtain ⟨ref, href⟩ := List.mem_iff_getElem?.mp hr
    exact ⟨ref, r, by rw [reference?, harrayed.references]; exact href, rfl⟩
  cases huse with
  | request huse =>
    obtain ⟨ref, href⟩ := List.mem_iff_getElem?.mp huse
    have hbegun : (s.begun o requests external).harvest.reference? ref = some use := by
      rw [begun_eq hopened.unsearched]
      exact href
    obtain ⟨r, hr, hg⟩ := hchanges.reference hbegun
    obtain ⟨request, -, rfl⟩ := List.mem_map.mp huse
    exact ⟨ref, r, by rw [reference?, harrayed.references]; exact hr, hg.bare⟩
  | @mention owner e he hfile huse =>
    obtain ⟨e₀, he₀, hd, -⟩ := harrayed.keeps.symm.graft he
    obtain ⟨last, hlast, -, hend⟩ := exists_steps_of_search hfound
    have htidy : found.Tidy := hend ▸ tidy_of_steps hopened hlast
    have hnames : found.names.get? owner = some (e₀.declaration, e₀.newName) := by
      rw [get?_names, he₀]
      rfl
    have hread : found.files.get? owner.file = some o := by
      rw [hfile]
      exact hchanges.file (begun_eq hopened.unsearched _ _ ▸ hopened.unsearched.file)
    have hheld : found.heldBy owner = mentioned o e.declaration := by
      rw [htidy.held owner, mentionedBy, hnames, hread, hd]
    rw [← hheld] at huse
    exact hmentions use (List.mem_filter.mp huse).1

/-- **What a run leaves** for its edits to be made from. -/
structure Trimmed (s : Harvest) (o : Outline) (orders : Orders) (clean : Cleaning)
    (spliced : Splice) : Prop where
  entry : s.entry = some o.path
  file : s.files.get? o.path = some o
  sound : o.Sound
  declared : ∀ key e, s.graft? key = some e →
    s.declaration? key = some e.declaration ∧ e.declaration.key = key
  taken : ∀ ref r key, s.reference? ref = some r → r.target = some key →
    s.isLeftOut r key = false → (s.graft? key).isSome
  clauses : s.Clauses
  filled : s.Filled
  edits : spliced.edits = s.edits orders clean
  emitted : spliced.emitted = (s.blockKeys orders).map s.newNameOf
  /-- A declaration of another file is in the block, unless its name has the mark. -/
  listed : ∀ key e, s.graft? key = some e → s.isEntryFile key.file = false →
    ¬inlineMark.toList <+: e.newName.toList → key ∈ s.blockKeys orders

theorem trimmed_of_searchAndSplice (hopened : Opened world s o) (hentry : s.entry = some o.path)
    (h : s.searchAndSplice world o requests external clean = (s', .ok (orders, spliced))) :
    s'.Trimmed o orders clean spliced := by
  obtain ⟨found, own, hfound, harrayed, -⟩ := arrayed_of_searchAndSplice hopened h
  obtain ⟨_, -, -, hspliced⟩ := exists_search_of_searchAndSplice h
  obtain ⟨-, -, hemitted, -⟩ := exists_splice hspliced
  have hcontained : s'.SelfContained orders clean :=
    (arranged_of_searchAndSplice hopened h).selfContained
  obtain ⟨hentry', hread, hedits⟩ := entry_of_searchAndSplice hopened hentry h
  refine ⟨hentry', hread, hopened.sound, fun key e he => ⟨?_, harrayed.key_eq he⟩,
    fun ref r key hr hkey hkept => ?_, harrayed.clauses, filled_of_searchAndSplice hopened h,
    hedits, hemitted,
    fun key e he hforeign hunmarked => ?_⟩
  · obtain ⟨e₀, he₀, hd, -⟩ := harrayed.keeps.symm.graft he
    rw [harrayed.keeps.declaration?, ← hd]
    exact harrayed.grounded.graft key e₀ he₀
  · have hr : found.reference? ref = some r := by
      rw [reference?, ← harrayed.references]
      exact hr
    rw [harrayed.keeps.isSome_graft?]
    rcases harrayed.linked.target ref r key hr hkey with ⟨d, hd, hleft⟩ | ⟨e, he, -⟩
    · rw [harrayed.keeps.isLeftOut, isLeftOut, hd] at hkept
      exact absurd (hleft.symm.trans hkept) (by simp)
    · rw [he]
      rfl
  · obtain ⟨e₀, he₀, -, hname⟩ := harrayed.keeps.symm.graft he
    obtain ⟨last, hlast, -, rfl⟩ := exists_steps_of_search hfound
    have htitle := title_of_steps hopened hlast key e₀ he₀
    have hforeign' : last.harvest.isEntryFile key.file = false := by
      rw [isEntryFile, ← harrayed.keeps.entry]
      exact hforeign
    rw [← hname] at hunmarked
    generalize e₀.newName = name at htitle hunmarked
    cases htitle with
    | own hentry => rw [hforeign'] at hentry; exact absurd hentry (by simp)
    | marked => exact absurd (mark_prefix_stem _) hunmarked
    | numbered n => exact absurd (mark_prefix_numbered _ n) hunmarked
    | @requested ref r _ _ hroot hr htarget =>
      have hresolved : s'.targetOf ref = some key := by
        rw [targetOf, reference?, harrayed.references]
        exact (targetOf_of_reference? hr).trans htarget
      rcases hcontained.requested ref (by rw [harrayed.keeps.roots]; exact hroot) key hresolved with
        hlisted | ⟨e', he', hstays, -⟩
      · exact hlisted
      · -- what stays in its place is declared in the entry script
        rw [stays, Bool.and_eq_true, Bool.and_eq_true] at hstays
        have hfile : e'.declaration.file = key.file :=
          congrArg Key.file (harrayed.key_eq he')
        rw [← hfile, hstays.1.1] at hforeign
        exact absurd hforeign (by simp)

namespace Trimmed

variable (h : s.Trimmed o orders clean spliced)
include h

/-- **A statement that loses a name** is edited. -/
theorem exists_trimmed {stmt : Import} {name : String} (hstmt : stmt ∈ o.importList)
    (hname : name ∈ stmt.names) (hdrops : s.Drops orders clean o name) :
    ∃ x ∈ spliced.edits, s.trimmed? orders clean o stmt = some x := by
  have hsome : (s.trimmed? orders clean o stmt).isSome := by
    have hlost : name ∉ (stmt.without
        (s.drops (s.synonyms.knownNames o.path) (s.keptNames orders clean))).names := by
      rw [Import.names_without, List.mem_filter, hdrops]
      simp
    rw [trimmed?, trimming?_eq]
    dsimp only
    rw [if_neg]
    · split <;> rfl
    · intro hsame
      rw [hsame] at hlost
      exact hlost hname
  obtain ⟨x, hx⟩ := Option.isSome_iff_exists.mp hsome
  refine ⟨x, ?_, hx⟩
  rw [h.edits, mem_edits_iff h.entry h.file]
  exact Or.inr (Or.inr ⟨stmt, hstmt, hx⟩)

/-- What is in the block under a name is declared there. -/
theorem declared_of_newNameOf {use : Reference} {key : Key} (hkey : key ∈ s.blockKeys orders)
    (hname : s.newNameOf key = use.name) : s.Cleared o clean spliced use := by
  refine Cleared.declared ?_
  rw [h.emitted, ← hname]
  exact List.mem_map.mpr ⟨key, hkey, rfl⟩

/-- **A request** that was resolved to a declaration of another file. -/
theorem cleared_of_request {ref : RefId} {r : Reference} {key : Key} {span : Span}
    (hr : s.reference? ref = some r) (howner : r.owner = none) (hkept : s.isLeftOut r key = false)
    (hspan : r.span = some span) (hkey : r.target = some key)
    (hlisted : s.newNameOf key = r.name → key ∈ s.blockKeys orders) :
    s.Cleared o clean spliced r := by
  by_cases hname : s.newNameOf key = r.name
  · exact h.declared_of_newNameOf (hlisted hname) hname
  · have hfilling : s.filling r key = some ⟨span, s.newNameOf key⟩ := by
      rw [filling, hspan, Option.bind_some, howner]
      dsimp only
      rw [if_neg]
      simp [hkept, hname]
    have hmem : (⟨span, s.newNameOf key⟩ : Replacement) ∈ s.rootEdits :=
      (h.filled none _).mpr ⟨ref, r, key, hr, howner, hkey, hfilling⟩
    have hedit : (⟨span, s.newNameOf key⟩ : Replacement) ∈ spliced.edits := by
      rw [h.edits, mem_edits_iff h.entry h.file]
      exact Or.inl hmem
    exact Cleared.rewritten hspan hedit

/-- What becomes of a declaration of the entry script is among the edits. -/
theorem mem_edits_of_editsOf {owner : Key} {e : Graft} (he : s.graft? owner = some e)
    (hfile : owner.file = o.path) {x : Replacement} (hx : x ∈ s.editsOf orders clean o e) :
    x ∈ spliced.edits := by
  rw [h.edits, mem_edits_iff h.entry h.file]
  refine Or.inr (Or.inl ⟨owner, e, Table.mem_of_get? he, ?_, hx⟩)
  have hkey : e.declaration.file = owner.file := congrArg Key.file (h.declared owner e he).2
  rw [hkey, hfile, isEntryFile, h.entry]
  simp

/-- **The name of a base** that was resolved to a declaration of another file. -/
theorem cleared_of_base {ref : RefId} {r : Reference} {owner key : Key} {e : Graft}
    (hr : s.reference? ref = some r) (howner : r.owner = some owner) (hkind : r.kind = .extends_)
    (he : s.graft? owner = some e) (hkey : r.target = some key)
    (hforeign : s.isEntryFile key.file = false) (hmembers : s.hasMembers key = true)
    (hdrops : s.Drops orders clean o r.name)
    (hidle : ¬(s.idleInterfaces orders clean).contains e.declaration.key = true)
    (hstays : s.stays orders e.declaration = true)
    (hedits : ∀ x ∈ s.renamedParents (s.blockKeys orders) e.declaration, x ∈ spliced.edits) :
    s.Cleared o clean spliced r := by
  obtain ⟨heritage, hmem, hname, hspan⟩ :=
    h.clauses.exists_heritage he (h.declared owner e he).2 hr howner hkind
  have hparent : (heritage, key, (s.blockKeys orders).contains key) ∈
      s.foreignParents (s.blockKeys orders) e.declaration := by
    refine List.mem_filterMap.mpr ⟨(heritage, ref), hmem, ?_⟩
    dsimp only
    rw [targetOf_of_reference? hr, hkey, Option.bind_some, if_pos]
    rw [hforeign, hmembers]
    rfl
  by_cases hlisted : key ∈ s.blockKeys orders
  · have hlisted' : (s.blockKeys orders).contains key = true := List.contains_iff_mem.mpr hlisted
    by_cases hnew : s.newNameOf key = r.name
    · exact h.declared_of_newNameOf hlisted hnew
    · refine Cleared.rewritten hspan (hedits ⟨heritage.slot, s.newNameOf key⟩ ?_)
      refine List.mem_filterMap.mpr ⟨_, hparent, ?_⟩
      dsimp only
      rw [hlisted', if_pos]
      rw [hname]
      simpa using hnew
  · -- the import of a base that is not in the block is kept
    have hkept : r.name ∈ s.keptNames orders clean := by
      refine List.mem_flatMap.mpr ⟨e, ?_, List.mem_filterMap.mpr ⟨_, hparent, ?_⟩⟩
      · refine List.mem_filter.mpr ⟨List.mem_filter.mpr
          ⟨List.mem_map.mpr ⟨_, Table.mem_of_get? he, rfl⟩, ?_⟩, ?_⟩
        · rw [stays, Bool.and_eq_true, Bool.and_eq_true] at hstays
          exact hstays.1.1
        · rw [hstays, Bool.and_true]
          simpa using hidle
      · dsimp only
        rw [if_neg (fun hmem => hlisted (List.contains_iff_mem.mp hmem)), hname]
    unfold Drops drops at hdrops
    split at hdrops
    · exact absurd hdrops (by simp)
    · simp [hkept] at hdrops

/-- **A mention** that was resolved to a declaration of another file. -/
theorem cleared_of_mention {ref : RefId} {r : Reference} {owner key : Key} {e : Graft} {span : Span}
    (hr : s.reference? ref = some r) (howner : r.owner = some owner) (he : s.graft? owner = some e)
    (hfile : owner.file = o.path) (hmention : r.bare ∈ mentioned o e.declaration)
    (hspan : r.span = some span) (hkey : r.target = some key)
    (hforeign : s.isEntryFile key.file = false) (hdrops : s.Drops orders clean o r.name)
    (hlisted : s.isLeftOut r key = false → s.newNameOf key = r.name →
      key ∈ s.blockKeys orders) : s.Cleared o clean spliced r := by
  obtain ⟨hdeclared, hown⟩ := h.declared owner e he
  obtain ⟨m, hm, hbare⟩ := List.mem_map.mp hmention
  have hm : m ∈ e.declaration.mentions o.source := (List.mem_filter.mp hm).1
  have hread : s.files.get? owner.file = some o := by
    rw [hfile]
    exact h.file
  have hget : o.declarations.get? owner.name = some e.declaration := by
    rw [declaration?, hread] at hdeclared
    exact hdeclared
  have htext : s.textOf owner.file span = r.name := by
    have hname : m.name = r.name := congrArg (fun r => r.name) hbare
    have hmspan : m.span = span :=
      Option.some.inj ((congrArg (fun r => r.span) hbare).trans hspan)
    rw [textOf, hread, Option.map_some, Option.getD_some, ← hmspan, ← hname]
    exact h.sound.text_of_mem_mentions hget hm
  have hplain : e.declaration.isEnumeration = false := by
    unfold Declaration.mentions at hm
    unfold Declaration.isEnumeration
    generalize e.declaration.shape = shape at hm ⊢
    cases shape with
    | enumeration => exact absurd hm List.not_mem_nil
    | _ => rfl
  have hentry : s.isEntryFile e.declaration.file = true := by
    have hkeyfile : e.declaration.file = owner.file := congrArg Key.file hown
    rw [hkeyfile, hfile, isEntryFile, h.entry]
    simp
  by_cases hgone : ((s.idleInterfaces orders clean).contains e.declaration.key ||
      s.moved orders e.declaration) = true
  · refine Cleared.erased howner he (h.mem_edits_of_editsOf he hfile ?_)
    rw [editsOf, declarationEdits, if_pos hgone]
    exact List.mem_singleton_self _
  · have hgone' := hgone
    rw [Bool.or_eq_true, not_or] at hgone'
    have hstays : s.stays orders e.declaration = true := by
      rw [stays, hentry, hplain]
      simpa using hgone'.2
    have hedits : ∀ x ∈ e.replacements ++ s.renamedParents (s.blockKeys orders) e.declaration,
        x ∈ spliced.edits := by
      intro x hx
      refine h.mem_edits_of_editsOf he hfile ?_
      rw [editsOf, declarationEdits, if_neg hgone, if_pos hstays]
      exact hx
    -- what is written into the slot is an edit
    have hfilled : ∀ text, s.filling r key = some ⟨span, text⟩ → s.Cleared o clean spliced r := by
      intro text hfilling
      have hmem : (⟨span, text⟩ : Replacement) ∈ s.written (some owner) :=
        (h.filled (some owner) _).mpr ⟨ref, r, key, hr, howner, hkey, hfilling⟩
      rw [written, he] at hmem
      exact Cleared.rewritten hspan (hedits _ (List.mem_append_left _ hmem))
    have hfilling : s.filling r key =
        if s.isLeftOut r key = true then some ⟨span, "\x7b\x7d"⟩
        else if r.kind = .extends_ ∧ s.hasMembers key = true then none
        else if s.newNameOf key = r.name then none else some ⟨span, s.newNameOf key⟩ := by
      rw [filling, hspan, Option.bind_some, howner]
      dsimp only
      rw [htext]
    split at hfilling
    · exact hfilled _ hfilling
    · next hkept =>
      split at hfilling
      · next hbase =>
        exact h.cleared_of_base hr howner hbase.1 he hkey hforeign hbase.2 hdrops hgone'.1
          hstays fun x hx => hedits x (List.mem_append_right _ hx)
      · split at hfilling
        · next hname => exact h.declared_of_newNameOf (hlisted (by simpa using hkept) hname) hname
        · exact hfilled _ hfilling

/-- **Every use that is followed** and was resolved to a declaration of another file. -/
theorem cleared {use : Reference} (huse : s.Follows o requests use)
    (hspans : ∀ request ∈ requests, request.span.isSome) {ref : RefId} {r : Reference} {key : Key}
    (hr : s.reference? ref = some r) (hbare : r.bare = use) (hkey : r.target = some key)
    (hforeign : s.isEntryFile key.file = false) (hdrops : s.Drops orders clean o use.name)
    (hmarked : inlineMark.toList <+: use.name.toList → key ∈ s.blockKeys orders) :
    s.Cleared o clean spliced use := by
  subst hbare
  have hlisted : s.isLeftOut r key = false → s.newNameOf key = r.name →
      key ∈ s.blockKeys orders := by
    intro hkept hname
    by_cases hmark : inlineMark.toList <+: r.name.toList
    · exact hmarked hmark
    · obtain ⟨e, he⟩ := Option.isSome_iff_exists.mp (h.taken ref r key hr hkey hkept)
      refine h.listed key e he hforeign ?_
      rw [← newNameOf_of_graft? he, hname]
      exact hmark
  have hcleared : s.Cleared o clean spliced r := by
    cases huse with
    | request huse =>
      obtain ⟨request, hrequest, heq⟩ := List.mem_map.mp huse
      obtain ⟨span, hspan⟩ := Option.isSome_iff_exists.mp (hspans request hrequest)
      have hkept : s.isLeftOut r key = false := by
        have hnested : r.nested = false := (congrArg (fun r => r.nested) heq).symm
        rw [isLeftOut]
        cases s.declaration? key with
        | none => rfl
        | some d => simp [leavesOut, hnested]
      exact h.cleared_of_request hr (congrArg (fun r => r.owner) heq).symm hkept
        ((congrArg (fun r => r.span) heq).symm.trans hspan) hkey (hlisted hkept)
    | @mention owner e he hfile huse =>
      obtain ⟨m, -, heq⟩ := List.mem_map.mp huse
      have howner : r.owner = some e.declaration.key := (congrArg (fun r => r.owner) heq).symm
      rw [(h.declared owner e he).2] at howner
      exact h.cleared_of_mention hr howner he hfile huse (congrArg (fun r => r.span) heq).symm hkey
        hforeign hdrops hlisted
  cases hcleared with
  | rewritten hspan hedit => exact Cleared.rewritten hspan hedit
  | erased howner he hedit => exact Cleared.erased howner he hedit
  | declared hemitted => exact Cleared.declared hemitted

end Trimmed

end Harvest

open Harvest

/-- **Imports that are taken away are not needed** by what is followed. When types are inlined
without an error, the component is left as it is, or its script is spliced. Then let an import
statement of the script lose a name, and let the name be used in a request or in a declaration that
was taken in. The use has a reference. If that was resolved to a declaration of another file, there
is no more need for the import. -/
theorem cleared_of_inlineTypes {world : World} {project : Project} {strict : Bool}
    {path code : String} {inlined : Inlined}
    (h : (inlineTypes world project strict path code).outcome = .ok inlined)
    (herror : inlined.error = none) :
    inlined = .unchanged code none ∨ ∃ run : Inlining world project strict path code,
      run.result = inlined ∧
      ∀ stmt ∈ run.outline.importList, ∀ name ∈ stmt.names,
        run.ended.Drops run.orders project.cleaning run.outline name →
        (∃ x ∈ run.splice.edits,
          run.ended.trimmed? run.orders project.cleaning run.outline stmt = some x) ∧
        ∀ use, run.ended.Follows run.outline run.script.rootRequests use → use.name = name →
          ∃ ref r, run.ended.reference? ref = some r ∧ r.bare = use ∧
            ∀ key, r.target = some key → run.ended.isEntryFile key.file = false →
              (inlineMark.toList <+: name.toList → key ∈ run.ended.blockKeys run.orders) →
                run.ended.Cleared run.outline project.cleaning run.splice use := by
  rcases eq_unchanged_or_exists_inlining h herror with hsame | ⟨run, hrun⟩
  · exact Or.inl hsame
  · refine Or.inr ⟨run, hrun, ?_⟩
    intro stmt hstmt name hname hdrops
    obtain ⟨hopened, hentry, -, -⟩ := SetupScript.opened world run.opens
    have htrimmed := trimmed_of_searchAndSplice hopened hentry run.ends
    refine ⟨htrimmed.exists_trimmed hstmt hname hdrops, ?_⟩
    rintro use huse rfl
    obtain ⟨ref, r, hr, hbare⟩ := exists_of_follows hopened run.ends huse
    refine ⟨ref, r, hr, hbare, fun key hkey hforeign hmarked => ?_⟩
    refine htrimmed.cleared huse ?_ hr hbare hkey hforeign hdrops hmarked
    intro request hrequest
    obtain ⟨asked, -, rfl⟩ := List.mem_map.mp hrequest
    rfl

/-! ### A use that is followed, and one that is not -/

mutual

/-- The places at which a node or one of its parts is the name of a type. -/
def Syntax.Node.placesOf (source : Bytes) (name : String) : Syntax.Node → List Span
  | .mk kind field span children =>
    (if kind = .typeIdentifier ∧ (Syntax.Node.mk kind field span children).text source = name then
      [span] else []) ++ placesOfParts source name children

/-- The places at which one of some nodes or their parts is the name of a type. -/
def Syntax.Node.placesOfParts (source : Bytes) (name : String) : List Syntax.Node → List Span
  | [] => []
  | child :: rest => child.placesOf source name ++ placesOfParts source name rest

end

/-- **A use of a name is left unbound**: an import statement loses the name, the script names a type
by it at a place that is neither edited nor in an import statement, and the block does not declare
it. -/
def Harvest.LeavesUnbound (s : Harvest) (orders : Orders) (clean : Cleaning) (script : SetupScript)
    (o : Outline) (spliced : Splice) (name : String) (span : Span) : Prop :=
  (∃ stmt ∈ o.importList, name ∈ stmt.names ∧ s.Drops orders clean o name) ∧
  span ∈ script.tree.placesOf script.source name ∧
  (∀ x ∈ spliced.edits, x.span.overlaps span = false) ∧
  (∀ stmt ∈ o.importList, stmt.span.overlaps span = false) ∧
  name ∉ spliced.emitted

instance (s : Harvest) (orders : Orders) (clean : Cleaning) (script : SetupScript) (o : Outline)
    (spliced : Splice) (name : String) (span : Span) :
    Decidable (s.LeavesUnbound orders clean script o spliced name span) := by
  unfold LeavesUnbound Drops
  infer_instance

/-- A module with an alias. -/
def World.oneAlias : World :=
  World.ofTree ⟨["w"], [(["w", "a.ts"], Bytes.ofString "export type Foo = string")]⟩ []

/-- A script with an interface that uses the alias in the type of a function and in a property. -/
def passedOver : String :=
  "\nimport \x7b Foo \x7d from './a'\ninterface Props \x7b f: (x: Foo) => void; g: Foo[] \x7d\n" ++
    "defineProps<Props>()\n"

set_option maxRecDepth 100000 in
/-- What comes of the script: the alias is found, and the parameter of the function is passed
over. -/
theorem exists_run_passedOver :
    ∃ run : Inlining World.oneAlias .standard false "/w/App.vue" (componentOf passedOver),
      (∃ span, run.ended.LeavesUnbound run.orders .none run.script run.outline run.splice "Foo"
        span) ∧
      (∃ e, run.ended.graft? ⟨"/w/App.vue", "Props"⟩ = some e ∧
        ∃ use ∈ mentioned run.outline e.declaration, use.name = "Foo") ∧
      (∀ r ∈ run.ended.references, r.name = "Foo" → r.target = some ⟨"/w/a.ts", "Foo"⟩) ∧
      ∀ run' : Inlining World.oneAlias .standard false "/w/App.vue" (componentOf passedOver),
        run' = run := by
  have helement : ScriptElement.setup? (componentOf passedOver) = some (elementOf passedOver) :=
    ScriptElement.setup?_componentOf (by decide +kernel)
  obtain ⟨run, hexpected, hall⟩ := Inlining.exists_of_comesTo helement
    (show Inlining.comesTo World.oneAlias .standard false "/w/App.vue" (componentOf passedOver)
      (elementOf passedOver) (fun script o s orders spliced _ =>
        ((script.tree.placesOf script.source "Foo").any fun span =>
          decide (s.LeavesUnbound orders .none script o spliced "Foo" span)) &&
        ((s.graft? ⟨"/w/App.vue", "Props"⟩).any fun e =>
          (mentioned o e.declaration).any fun use => use.name == "Foo") &&
        s.references.all fun r => r.name != "Foo" || r.target == some ⟨"/w/a.ts", "Foo"⟩) = true by
      decide +kernel)
  rw [Bool.and_eq_true, Bool.and_eq_true] at hexpected
  obtain ⟨⟨hunbound, hmention⟩, htargets⟩ := hexpected
  obtain ⟨span, -, hspan⟩ := List.any_eq_true.mp hunbound
  refine ⟨run, ⟨span, of_decide_eq_true hspan⟩, ?_, ?_, hall⟩
  · cases he : run.ended.graft? ⟨"/w/App.vue", "Props"⟩ with
    | none =>
      rw [he] at hmention
      exact absurd hmention (by simp)
    | some e =>
      rw [he] at hmention
      obtain ⟨use, huse, hname⟩ := List.any_eq_true.mp hmention
      exact ⟨e, rfl, use, huse, beq_iff_eq.mp hname⟩
  · intro r hr hname
    have htarget := List.all_eq_true.mp htargets r hr
    rw [hname] at htarget
    simpa using htarget

/-- The property of the interface needs no import any more. -/
theorem cleared_of_inlineTypes_passedOver :
    ∃ run : Inlining World.oneAlias .standard false "/w/App.vue" (componentOf passedOver),
      (inlineTypes World.oneAlias .standard false "/w/App.vue" (componentOf passedOver)).outcome =
        .ok run.result ∧
      run.result.error = none ∧
      ∃ stmt ∈ run.outline.importList, "Foo" ∈ stmt.names ∧
        run.ended.Drops run.orders .none run.outline "Foo" ∧
        ∃ use, run.ended.Follows run.outline run.script.rootRequests use ∧ use.name = "Foo" ∧
          run.ended.Cleared run.outline .none run.splice use := by
  obtain ⟨run, ⟨-, ⟨stmt, hstmt, hname, hdrops⟩, -⟩, ⟨e, he, use, huse, huname⟩, htargets, hall⟩ :=
    exists_run_passedOver
  obtain ⟨hopened, hentry, hpath, -⟩ := SetupScript.opened World.oneAlias run.opens
  have hfollows : run.ended.Follows run.outline run.script.rootRequests use :=
    Follows.mention he hpath.symm huse
  refine ⟨run, run.outcome_eq, rfl, stmt, hstmt, hname, hdrops, use, hfollows, huname, ?_⟩
  rcases cleared_of_inlineTypes run.outcome_eq rfl with hsame | ⟨run', -, hcleared⟩
  · -- the script asks for something
    have hnone : run.script.requests.map (·.name) = [] := congrArg Inlined.requested hsame
    have hasks := run.asks
    rw [List.map_eq_nil_iff.mp hnone] at hasks
    exact absurd hasks (by simp)
  · obtain rfl := hall run'
    obtain ⟨ref, r, hr, hbare, hcleared⟩ :=
      (hcleared stmt hstmt "Foo" hname hdrops).2 use hfollows huname
    have hrname : r.name = "Foo" := (congrArg (fun r => r.name) hbare).trans huname
    refine hcleared ⟨"/w/a.ts", "Foo"⟩ (htargets r (List.mem_of_getElem? hr) hrname) ?_ ?_
    · rw [isEntryFile, (entry_of_searchAndSplice hopened hentry run'.ends).1, hpath]
      decide
    · intro hmarked
      exact absurd hmarked (by decide)

/-- **A use that is not followed may be left unbound**: the type of the parameter of a function is
kept as it is, and its import is removed. -/
theorem exists_leavesUnbound :
    ∃ run : Inlining World.oneAlias .standard false "/w/App.vue" (componentOf passedOver),
      (inlineTypes World.oneAlias .standard false "/w/App.vue" (componentOf passedOver)).outcome =
        .ok run.result ∧
      run.result.error = none ∧ ∃ span, run.ended.LeavesUnbound run.orders .none run.script
        run.outline run.splice "Foo" span := by
  obtain ⟨run, hunbound, -⟩ := exists_run_passedOver
  exact ⟨run, run.outcome_eq, rfl, hunbound⟩

end TypeGraft
