import TypeGraft.Proofs.Splice.Cleanup
import TypeGraft.Proofs.Splice.Needs

/-!
# Names that are written into the script

An edit of the entry script may write the name of a declaration (`TypeGraft.Harvest.Names`): into
the slot of a request, into a slot of a declaration that stays in its place, or in the place of the
name of a base. That declaration should then be in the block, or be one that stays in its place.

This is so for what is asked for and for bases. For a slot of a declaration in place it is so
exactly if what is named is an alias or an interface of the script, or is used by something that is
needed (`TypeGraft.declared_of_inlineTypes`). If no circle of interfaces is broken, all declarations
in place are needed. But an interface that was only needed for what extends it stays in its place
when the circle is broken, and its slots name what is not in the block
(`TypeGraft.exists_not_declared`).
-/

namespace TypeGraft

namespace Harvest

variable {world : World} {s s' : Harvest} {o : Outline} {orders : Orders} {clean : Cleaning}
  {requests : List RootRequest} {external : Bool} {spliced : Splice} {x : Replacement} {key : Key}

/-- **A declaration that the script has in the end**: it is in the block, or it is an alias or an
interface of the script whose statement is left. -/
def Declared (s : Harvest) (orders : Orders) (clean : Cleaning) (key : Key) : Prop :=
  key ∈ s.blockKeys orders ∨ s.InPlace orders clean key

/-- An alias or an interface of the entry script. -/
def IsOwn (s : Harvest) (key : Key) : Prop :=
  ∃ e, s.graft? key = some e ∧ s.isEntryFile e.declaration.file = true ∧
    e.declaration.isEnumeration = false

/-- **An edit writes the name of a declaration.** -/
inductive Names (s : Harvest) (orders : Orders) (clean : Cleaning) : Replacement → Key → Prop where
  /-- It is for the slot of a request. -/
  | request {ref : RefId} {r : Reference} {key : Key} {x : Replacement}
      (hr : s.reference? ref = some r) (howner : r.owner = none) (hkey : r.target = some key)
      (hx : s.filling r key = some x) : Names s orders clean x key
  /-- It is for a slot of a declaration that stays in its place. -/
  | slot {owner : Key} {ref : RefId} {r : Reference} {key : Key} {x : Replacement}
      (hplace : s.InPlace orders clean owner) (hr : s.reference? ref = some r)
      (howner : r.owner = some owner) (hkey : r.target = some key)
      (hkept : s.isLeftOut r key = false) (hx : s.filling r key = some x) :
      Names s orders clean x key
  /-- It is for the name of a base of an interface that stays in its place. -/
  | base {owner : Key} {e : Graft} {heritage : Heritage} {key : Key}
      (hplace : s.InPlace orders clean owner) (he : s.graft? owner = some e)
      (hparent : (heritage, key, true) ∈ s.foreignParents (s.blockKeys orders) e.declaration) :
      Names s orders clean ⟨heritage.slot, s.newNameOf key⟩ key

/-- **An edit writes no name of a declaration.** -/
inductive Nameless (s : Harvest) (orders : Orders) (clean : Cleaning) (o : Outline) :
    Replacement → Prop where
  /-- A statement is removed. -/
  | erased {e : Graft} : Nameless s orders clean o (erasure clean o.source e.declaration.statement)
  /-- What a reference stands for is left out. -/
  | leftOut {ref : RefId} {r : Reference} {key : Key} {span : Span} (hr : s.reference? ref = some r)
      (hkey : r.target = some key) (hleft : s.isLeftOut r key = true) :
      Nameless s orders clean o ⟨span, "\x7b\x7d"⟩
  /-- An import statement loses names. -/
  | trimmed {stmt : Import} {x : Replacement} (hstmt : stmt ∈ o.importList)
      (hx : s.trimmed? orders clean o stmt = some x) : Nameless s orders clean o x

/-- **What is written into a slot** is an empty type, or the name of the declaration. -/
theorem text_of_filling {r : Reference} (hx : s.filling r key = some x) :
    (r.owner.isSome ∧ s.isLeftOut r key = true ∧ x.text = "\x7b\x7d") ∨
      (s.isLeftOut r key = false ∧ x.text = s.newNameOf key ∧
        ∀ owner, r.owner = some owner → ¬(r.kind = .extends_ ∧ s.hasMembers key = true)) := by
  obtain ⟨span, -, hx⟩ := Option.bind_eq_some_iff.mp hx
  cases howner : r.owner with
  | none =>
    rw [howner] at hx
    dsimp only at hx
    split at hx
    · exact absurd hx (by simp)
    · next hnot =>
      obtain rfl := Option.some.inj hx
      refine Or.inr ⟨?_, rfl, fun owner h => absurd h (by simp)⟩
      simpa using (not_or.mp hnot).1
  | some owner =>
    rw [howner] at hx
    dsimp only at hx
    split at hx
    · next hleft =>
      obtain rfl := Option.some.inj hx
      exact Or.inl ⟨rfl, hleft, rfl⟩
    · next hleft =>
      split at hx
      · exact absurd hx (by simp)
      · next hbase =>
        split at hx
        · exact absurd hx (by simp)
        · obtain rfl := Option.some.inj hx
          exact Or.inr ⟨by simpa using hleft, rfl, fun _ _ => hbase⟩

/-- **The names in the end**: no declaration is listed twice, and an alias or an interface of the
script keeps its own name. -/
theorem own_of_searchAndSplice (hopened : Opened world s o)
    (h : s.searchAndSplice world o requests external clean = (s', .ok (orders, spliced))) :
    s'.grafts.keys.Nodup ∧ ∀ key, s'.InPlace orders clean key → s'.newNameOf key = key.name := by
  obtain ⟨found, own, hfound, harrayed, -⟩ := arrayed_of_searchAndSplice hopened h
  obtain ⟨last, hsteps, -, rfl⟩ := exists_steps_of_search hfound
  have hnamed := wellNamed_harvest hopened hsteps
  constructor
  · have hkeys : s'.names.keys = s'.grafts.keys := List.map_map
    rw [← hkeys, harrayed.keeps.names]
    exact hnamed.once
  · rintro key ⟨e, he, hstays, -⟩
    obtain ⟨e₀, he₀, hd, hname⟩ := harrayed.keeps.symm.graft he
    rw [stays, Bool.and_eq_true, Bool.and_eq_true, Bool.not_eq_true'] at hstays
    have hfile : e.declaration.file = key.file := congrArg Key.file (harrayed.key_eq he)
    rw [newNameOf_of_graft? he, ← hname]
    refine hnamed.own key e₀ he₀ ?_ (hd ▸ hstays.1.2)
    rw [isEntryFile, ← harrayed.keeps.entry, ← hfile]
    exact hstays.1.1

theorem owned_of_searchAndSplice (hopened : Opened world s o)
    (h : s.searchAndSplice world o requests external clean = (s', .ok (orders, spliced))) :
    s'.Owned := by
  obtain ⟨found, own, hfound, harrayed, -⟩ := arrayed_of_searchAndSplice hopened h
  have howned := (owned_begun hopened.unsearched requests external).changes
    (searching_of_search hopened hfound).2
  intro ref r hr href
  rw [reference?, harrayed.references] at hr
  rw [harrayed.keeps.roots] at href
  exact howned ref r hr href

/-- **Every edit writes the name of a declaration, or none.** -/
theorem Trimmed.names (h : s.Trimmed o orders clean spliced) (honce : s.grafts.keys.Nodup)
    (hx : x ∈ spliced.edits) : s.Nameless orders clean o x ∨ ∃ key, s.Names orders clean x key := by
  rw [h.edits, mem_edits_iff h.entry h.file] at hx
  rcases hx with hroot | ⟨owner, e, hmem, -, hx⟩ | ⟨stmt, hstmt, hx⟩
  · obtain ⟨ref, r, key, hr, howner, hkey, hfilling⟩ := (h.filled none x).mp hroot
    exact Or.inr ⟨key, Names.request hr howner hkey hfilling⟩
  · have he : s.graft? owner = some e := Table.get?_of_mem honce hmem
    rw [editsOf, declarationEdits] at hx
    split at hx
    · obtain rfl := List.mem_singleton.mp hx
      exact Or.inl Nameless.erased
    · next hgone =>
      rw [Bool.or_eq_true, not_or, (h.declared owner e he).2] at hgone
      split at hx
      · next hstays =>
        have hplace : s.InPlace orders clean owner :=
          ⟨e, he, hstays, fun hidle => hgone.1 (List.contains_iff_mem.mpr hidle)⟩
        rcases List.mem_append.mp hx with hslot | hbase
        · have hwritten : x ∈ s.written (some owner) := by
            rw [written, he]
            exact hslot
          obtain ⟨ref, r, key, hr, howner, hkey, hfilling⟩ := (h.filled (some owner) x).mp hwritten
          cases hleft : s.isLeftOut r key with
          | false => exact Or.inr ⟨key, Names.slot hplace hr howner hkey hleft hfilling⟩
          | true =>
            rcases text_of_filling hfilling with ⟨-, -, htext⟩ | ⟨hkept, -⟩
            · obtain ⟨span, text⟩ := x
              obtain rfl : text = _ := htext
              exact Or.inl (Nameless.leftOut hr hkey hleft)
            · exact absurd (hleft.symm.trans hkept) (by simp)
        · obtain ⟨⟨heritage, key, isInBlock⟩, hparent, hbase⟩ := List.mem_filterMap.mp hbase
          dsimp only at hbase
          split at hbase
          · next hnew =>
            rw [Bool.and_eq_true] at hnew
            obtain rfl : isInBlock = true := hnew.1
            obtain rfl := Option.some.inj hbase
            exact Or.inr ⟨key, Names.base hplace he hparent⟩
          · exact absurd hbase (by simp)
      · exact absurd hx List.not_mem_nil
  · exact Or.inl (Nameless.trimmed hstmt hx)

theorem Names.text_eq (h : s.Names orders clean x key) : x.text = s.newNameOf key := by
  cases h with
  | request _ howner _ hx =>
    rcases text_of_filling hx with ⟨hsome, -⟩ | ⟨-, htext, -⟩
    · rw [howner] at hsome
      exact absurd hsome (by simp)
    · exact htext
  | slot _ _ _ _ hkept hx =>
    rcases text_of_filling hx with ⟨-, hleft, -⟩ | ⟨-, htext, -⟩
    · exact absurd (hleft.symm.trans hkept) (by simp)
    · exact htext
  | base => rfl

/-! ### What is declared -/

theorem of_inPlace (h : s.InPlace orders clean key) : s.IsOwn key := by
  obtain ⟨e, he, hstays, -⟩ := h
  rw [stays, Bool.and_eq_true, Bool.and_eq_true, Bool.not_eq_true'] at hstays
  exact ⟨e, he, hstays.1.1, hstays.1.2⟩

/-- An interface that something uses is not idle. -/
theorem not_mem_idleInterfaces_of_edge {owner : Key} (hedge : s.dependencies.Edge owner key) :
    key ∉ s.idleInterfaces orders clean := by
  intro hidle
  unfold idleInterfaces at hidle
  split at hidle
  · exact absurd hidle List.not_mem_nil
  · obtain ⟨⟨key', e⟩, hmem, rfl⟩ := List.mem_map.mp hidle
    have hunused : s.dependencies.inDegree key' = 0 :=
      beq_iff_eq.mp (Bool.and_eq_true_iff.mp (List.mem_filter.mp hmem).2).2
    have hnone := List.length_eq_zero_iff.mp hunused
    exact List.filter_eq_nil_iff.mp hnone (owner, key') hedge (by simp)

/-- **An alias or an interface of the script that something uses** is declared in the end: it is
moved into the block, or stays in its place. -/
theorem Arranged.declared_of_isOwn (h : s.Arranged orders) (hown : s.IsOwn key)
    (hkey : ∀ e, s.graft? key = some e → e.declaration.key = key) {owner : Key}
    (hedge : s.dependencies.Edge owner key) : s.Declared orders clean key := by
  obtain ⟨e, he, hentry, hplain⟩ := hown
  by_cases hlisted : key ∈ orders.blockOrder
  · exact placed hlisted ((h.nodes key).mp (h.mem_nodes_of_mem_blockOrder hlisted))
  · have hmoved : s.moved orders e.declaration = false := by
      rw [moved, hkey e he]
      simp [hlisted]
    refine Or.inr ⟨e, he, ?_, not_mem_idleInterfaces_of_edge hedge⟩
    rw [stays, hentry, hplain, hmoved]
    rfl

/-- **What an edit names** is in the order, or is used by a declaration that stays in its place. -/
theorem Arranged.reached_of_names (h : s.Arranged orders) (howned : s.Owned)
    (hnames : s.Names orders clean x key) :
    key ∈ orders.blockOrder ∨
      ∃ owner, s.InPlace orders clean owner ∧ s.dependencies.Edge owner key := by
  have hbinds : ∀ {r : Reference}, r.target = some key → s.isLeftOut r key = false →
      s.Binds r key := by
    intro r htarget hkept
    refine ⟨htarget, fun d hd => ?_⟩
    rw [isLeftOut, hd] at hkept
    exact hkept
  cases hnames with
  | @request ref r _ _ hr howner htarget hx =>
    refine Or.inl (h.mem_blockOrder_of_requested (mem_requestedKeys_iff.mpr ⟨ref, ?_, ?_⟩))
    · by_contra href
      obtain ⟨owner, hsome⟩ := howned ref r hr href
      exact absurd (howner.symm.trans hsome) (by simp)
    · rw [targetOf_of_reference? hr]
      exact htarget
  | @slot owner ref r _ _ hplace hr howner htarget hkept hx =>
    refine Or.inr ⟨owner, hplace, (h.bound ref r key hr (hbinds htarget hkept)).2 owner howner ?_⟩
    rcases text_of_filling hx with ⟨-, hleft, -⟩ | ⟨-, -, hbase⟩
    · exact absurd (hleft.symm.trans hkept) (by simp)
    · exact hbase owner howner
  | base hplace he hparent =>
    obtain ⟨⟨heritage, ref⟩, -, hparent⟩ := List.mem_filterMap.mp hparent
    obtain ⟨base, -, hparent⟩ := Option.bind_eq_some_iff.mp hparent
    split at hparent
    · obtain ⟨-, rfl, hlisted⟩ : _ ∧ base = key ∧ base ∈ s.blockKeys orders := by
        simpa using hparent
      exact Or.inl (of_mem_blockKeys hlisted).1
    · exact absurd hparent (by simp)

/-- **What an edit names is declared** exactly if it is an alias or an interface of the script, is
asked for, or is used by something that is needed. -/
theorem Arranged.declared_iff (h : s.Arranged orders) (howned : s.Owned)
    (hkey : ∀ e, s.graft? key = some e → e.declaration.key = key)
    (hnames : s.Names orders clean x key) :
    s.Declared orders clean key ↔ s.IsOwn key ∨ key ∈ s.requestedKeys ∨
      ∃ owner, s.Needed owner ∧ s.dependencies.Edge owner key := by
  rw [← h.mem_blockOrder_iff_needed]
  have hlisted : key ∈ orders.blockOrder → s.Declared orders clean key := fun horder =>
    placed horder ((h.nodes key).mp (h.mem_nodes_of_mem_blockOrder horder))
  constructor
  · rintro (hblock | hplace)
    · exact Or.inr (of_mem_blockKeys hblock).1
    · exact Or.inl (of_inPlace hplace)
  · rintro (hown | horder)
    · rcases h.reached_of_names howned hnames with horder | ⟨owner, -, hedge⟩
      · exact hlisted horder
      · exact h.declared_of_isOwn hown hkey hedge
    · exact hlisted horder

end Harvest

open Harvest

/-- **The names that are written into the script.** When types are inlined without an error, the
component is left as it is, or its script is spliced. Then every edit writes the name of a
declaration, or none. What it names is the name of a declaration that the script has in the end
exactly if this is an alias or an interface of the script, is asked for, or is used by something
that is needed. So it is whenever no circle of interfaces was broken. -/
theorem declared_of_inlineTypes {world : World} {project : Project} {strict : Bool}
    {path code : String} {inlined : Inlined}
    (h : (inlineTypes world project strict path code).outcome = .ok inlined)
    (herror : inlined.error = none) :
    inlined = .unchanged code none ∨ ∃ run : Inlining world project strict path code,
      run.result = inlined ∧
      (∀ x ∈ run.splice.edits, run.ended.Nameless run.orders project.cleaning run.outline x ∨
        ∃ key, run.ended.Names run.orders project.cleaning x key) ∧
      ∀ x key, run.ended.Names run.orders project.cleaning x key →
        x.text = run.ended.newNameOf key ∧
        (run.ended.Declared run.orders project.cleaning key ↔
          run.ended.IsOwn key ∨ key ∈ run.ended.requestedKeys ∨
            ∃ owner, run.ended.Needed owner ∧ run.ended.dependencies.Edge owner key) ∧
        (run.ended.Declared run.orders project.cleaning key → x.text ∈ inlined.emitted ∨
          run.ended.InPlace run.orders project.cleaning key ∧ x.text = key.name) ∧
        (inlined.cycles = [] → run.ended.Declared run.orders project.cleaning key) := by
  rcases eq_unchanged_or_exists_inlining h herror with hsame | ⟨run, rfl⟩
  · exact Or.inl hsame
  · refine Or.inr ⟨run, rfl, ?_⟩
    obtain ⟨hopened, hentry, -, -⟩ := SetupScript.opened world run.opens
    have htrimmed := trimmed_of_searchAndSplice hopened hentry run.ends
    have harranged := arranged_of_searchAndSplice hopened run.ends
    obtain ⟨honce, hown⟩ := own_of_searchAndSplice hopened run.ends
    have howned := owned_of_searchAndSplice hopened run.ends
    refine ⟨fun x hx => htrimmed.names honce hx, fun x key hnames => ?_⟩
    have hiff := harranged.declared_iff howned (fun e he => (htrimmed.declared key e he).2) hnames
    refine ⟨hnames.text_eq, hiff, ?_, ?_⟩
    · rintro (hlisted | hplace)
      · refine Or.inl ?_
        rw [hnames.text_eq]
        have hemitted : run.result.emitted = _ := htrimmed.emitted
        rw [hemitted]
        exact List.mem_map_of_mem hlisted
      · exact Or.inr ⟨hplace, hnames.text_eq.trans (hown key hplace)⟩
    · intro hcycles
      have hcircles : run.orders.circles = [] := List.map_eq_nil_iff.mp hcycles
      rcases harranged.reached_of_names howned hnames with horder | ⟨owner, hplace, hedge⟩
      · exact placed horder
          ((harranged.nodes key).mp (harranged.mem_nodes_of_mem_blockOrder horder))
      · obtain ⟨e, he, -⟩ := hplace
        have hneeded : run.ended.Needed owner :=
          needed_of_searchAndSplice hopened run.ends hcircles (by rw [he]; rfl)
        exact hiff.mpr (Or.inr (Or.inr ⟨owner, hneeded, hedge⟩))

/-! ### Broken circles -/

/-- Whether an edit writes the name of a declaration into a slot of one that stays in its place. -/
def Harvest.namesSlot (s : Harvest) (orders : Orders) (clean : Cleaning) (owner key : Key)
    (x : Replacement) : Bool :=
  ((s.graft? owner).any fun e => s.stays orders e.declaration) &&
    !(s.idleInterfaces orders clean).contains owner &&
    s.references.any fun r => r.owner == some owner && r.target == some key &&
      !s.isLeftOut r key && s.filling r key == some x

theorem Harvest.names_of_namesSlot {s : Harvest} {orders : Orders} {clean : Cleaning}
    {owner key : Key} {x : Replacement} (h : s.namesSlot orders clean owner key x = true) :
    s.Names orders clean x key := by
  rw [namesSlot, Bool.and_eq_true, Bool.and_eq_true] at h
  obtain ⟨⟨hstays, hidle⟩, hany⟩ := h
  obtain ⟨e, he, hstays⟩ := (Option.any_eq_true _ _).mp hstays
  obtain ⟨r, hr, hall⟩ := List.any_eq_true.mp hany
  obtain ⟨ref, href⟩ := List.mem_iff_getElem?.mp hr
  obtain ⟨⟨⟨howner, htarget⟩, hkept⟩, hx⟩ : ((r.owner = some owner ∧ r.target = some key) ∧
      s.isLeftOut r key = false) ∧ s.filling r key = some x := by
    simpa using hall
  exact Names.slot ⟨e, he, hstays, by simpa using hidle⟩ href howner htarget hkept hx

/-- A script with two interfaces that extend each other, each of which names the next thing: the
first the second, and the second the alias of a module. -/
def circleInUse : String :=
  "\nimport \x7b Foo \x7d from './a'\ninterface A extends B \x7b a: B[] \x7d\n" ++
    "interface B extends A \x7b b: Foo[] \x7d\ndefineProps<A>()\n"

/-- The same, but the first interface does not name the second. -/
def circleAside : String :=
  "\nimport \x7b Foo \x7d from './a'\ninterface A extends B \x7b a: string \x7d\n" ++
    "interface B extends A \x7b b: Foo[] \x7d\ndefineProps<A>()\n"

set_option maxRecDepth 100000 in
/-- The circle is broken, but the second interface is still needed, and what it names is in the
block. -/
theorem declared_of_inlineTypes_circleInUse :
    ∃ run : Inlining World.oneAlias .standard false "/w/App.vue" (componentOf circleInUse),
      (inlineTypes World.oneAlias .standard false "/w/App.vue"
        (componentOf circleInUse)).outcome = .ok run.result ∧
      run.result.error = none ∧ run.result.cycles = [["A", "B"]] ∧
      ∃ x ∈ run.splice.edits, x.text = "_INLINE_Foo" ∧
        run.ended.Names run.orders .none x ⟨"/w/a.ts", "Foo"⟩ ∧
        run.ended.Declared run.orders .none ⟨"/w/a.ts", "Foo"⟩ ∧ x.text ∈ run.result.emitted := by
  have helement : ScriptElement.setup? (componentOf circleInUse) = some (elementOf circleInUse) :=
    ScriptElement.setup?_componentOf (by decide +kernel)
  obtain ⟨run, hexpected, hall⟩ := Inlining.exists_of_comesTo helement
    (show Inlining.comesTo World.oneAlias .standard false "/w/App.vue" (componentOf circleInUse)
      (elementOf circleInUse) (fun _ _ s orders spliced _ =>
        decide (s.logUnbound.circleNames orders = [["A", "B"]] ∧
          ⟨"/w/App.vue", "A"⟩ ∈ s.requestedKeys ∧
          (⟨"/w/App.vue", "A"⟩, ⟨"/w/App.vue", "B"⟩) ∈ s.dependencies.edges ∧
          (⟨"/w/App.vue", "B"⟩, ⟨"/w/a.ts", "Foo"⟩) ∈ s.dependencies.edges ∧
          ∃ x ∈ spliced.edits, x.text = "_INLINE_Foo" ∧
            s.namesSlot orders .none ⟨"/w/App.vue", "B"⟩ ⟨"/w/a.ts", "Foo"⟩ x = true)) = true by
      decide +kernel)
  obtain ⟨hcycles, hrequested, huses, hfoo, x, hx, htext, hnames⟩ := of_decide_eq_true hexpected
  have hnames := names_of_namesSlot hnames
  refine ⟨run, run.outcome_eq, rfl, hcycles, x, hx, htext, hnames, ?_⟩
  rcases declared_of_inlineTypes run.outcome_eq rfl with hsame | ⟨run', -, -, hdeclared⟩
  · -- a circle was broken
    have hnone : run.result.cycles = [] := congrArg Inlined.cycles hsame
    exact absurd (hcycles.symm.trans hnone) (by simp)
  · obtain rfl := hall run'
    obtain ⟨-, hiff, hname, -⟩ := hdeclared x _ hnames
    have hdeclared := hiff.mpr (Or.inr (Or.inr
      ⟨⟨"/w/App.vue", "B"⟩, Needed.used (Needed.requested hrequested) huses, hfoo⟩))
    refine ⟨hdeclared, (hname hdeclared).resolve_right fun hplace => ?_⟩
    rw [htext] at hplace
    exact absurd hplace.2 (by decide)

set_option maxRecDepth 100000 in
/-- **A name may be written that is declared nowhere**: when the circle is broken, the second
interface is needed no more, and stays in its place. What it names is not in the block, and the
script declares nothing of that name. -/
theorem exists_not_declared :
    ∃ run : Inlining World.oneAlias .standard false "/w/App.vue" (componentOf circleAside),
      (inlineTypes World.oneAlias .standard false "/w/App.vue"
        (componentOf circleAside)).outcome = .ok run.result ∧
      run.result.error = none ∧ run.result.cycles = [["A", "B"]] ∧ run.result.emitted = [] ∧
      ∃ x ∈ run.splice.edits, x.text = "_INLINE_Foo" ∧
        run.ended.Names run.orders .none x ⟨"/w/a.ts", "Foo"⟩ ∧
        ¬run.ended.Declared run.orders .none ⟨"/w/a.ts", "Foo"⟩ ∧
        x.text ∉ run.outline.declarations.map (·.1) := by
  have helement : ScriptElement.setup? (componentOf circleAside) = some (elementOf circleAside) :=
    ScriptElement.setup?_componentOf (by decide +kernel)
  obtain ⟨run, hexpected, -⟩ := Inlining.exists_of_comesTo helement
    (show Inlining.comesTo World.oneAlias .standard false "/w/App.vue" (componentOf circleAside)
      (elementOf circleAside) (fun _ o s orders spliced _ =>
        decide (s.logUnbound.circleNames orders = [["A", "B"]] ∧ spliced.emitted = [] ∧
          s.blockKeys orders = [] ∧ s.isEntryFile "/w/a.ts" = false ∧
          ((s.graft? ⟨"/w/a.ts", "Foo"⟩).any fun e => e.declaration.file == "/w/a.ts") = true ∧
          ∃ x ∈ spliced.edits, x.text = "_INLINE_Foo" ∧ x.text ∉ o.declarations.map (·.1) ∧
            s.namesSlot orders .none ⟨"/w/App.vue", "B"⟩ ⟨"/w/a.ts", "Foo"⟩ x = true)) = true by
      decide +kernel)
  obtain ⟨hcycles, hemitted, hblock, hforeign, hfile, x, hx, htext, habsent, hnames⟩ :=
    of_decide_eq_true hexpected
  refine ⟨run, run.outcome_eq, rfl, hcycles, hemitted, x, hx, htext, names_of_namesSlot hnames, ?_,
    habsent⟩
  rintro (hlisted | ⟨e, he, hstays, -⟩)
  · rw [hblock] at hlisted
    exact absurd hlisted List.not_mem_nil
  · -- it is not a declaration of the script
    rw [he, Option.any_some, beq_iff_eq] at hfile
    rw [stays, hfile, hforeign] at hstays
    exact absurd hstays (by simp)

end TypeGraft
