import TypeGraft.Proofs.Outline.Layout
import TypeGraft.Proofs.Outline.Scans
import TypeGraft.Proofs.Syntax.Openings

/-!
# What is copied of a declaration begins behind its word

The body of an alias or an interface does not begin where its statement does, since the word for it
stands in front. A body with members begins with a brace, and all that it names stands behind it
(`TypeGraft.Declaration.Opened`). So members can be put behind the brace, in front of all slots.
-/

namespace TypeGraft

open Syntax Syntax.Node

/-- **What a declaration begins with.** -/
structure Declaration.Opened (source : Bytes) (d : Declaration) : Prop where
  behind : d.isEnumeration = false → d.statement.start < d.body.start
  braced : d.hasMembers = true → ∃ rest, d.content = 0x7b :: rest
  members : d.hasMembers = true → ∀ m ∈ d.bodyMentions source, d.body.start < m.span.start

/-- A node of a tree that begins as it should does so, too. -/
theorem Syntax.Node.Opened.under {source : Bytes} {node tree : Node} (h : tree.Opened source)
    (hnode : node.Under tree) : node.Opened source := by
  induction hnode with
  | refl => exact h
  | tail _ hchild ih => exact ih.child hchild

namespace Outline

variable {source : Bytes} {path : String} {strict : Bool}

/-- All declarations of the file begin as they should. -/
def Opened (o : Outline) : Prop :=
  ∀ name d, o.declarations.get? name = some d → d.Opened o.source

/-- A node that lies in a span, and that begins as it should, with all of its parts. -/
structure OpensIn (source : Bytes) (base : Span) (node : Node) : Prop where
  liesIn : node.LiesIn source base
  opened : node.Opened source

/-! ### Blocks and bodies -/

/-- **A block of members** begins with a brace, and all that it names stands behind the brace. -/
theorem braced_of_objectType {block : Node} (hwell : block.WellFormed source)
    (hopened : block.Opened source) (hkind : block.kind = .objectType) :
    (∃ rest, block.bytes source = 0x7b :: rest) ∧
      ∀ m ∈ Mention.ofBlock source block, block.span.start < m.span.start := by
  have hopening : block.kind.opening? = some "\x7b" := by
    rw [hkind]
    rfl
  obtain ⟨first, rest, hbegins⟩ := hopened.begins hopening
  have hlength : first.span.stop = block.span.start + 1 := hbegins.length hwell
  constructor
  · have hfirst := hwell.child (hbegins.children ▸ List.mem_cons_self)
    have hcut := @Span.slice_eq_of_in _ _ _ source hfirst.inside hwell.cuts.inside.1
      hwell.cuts.inside.2.2
    rw [hbegins.slice, hlength, hbegins.start, Int.sub_self] at hcut
    cases hbytes : block.span.slice source with
    | nil =>
      rw [hbytes, List.drop_nil, List.take_nil] at hcut
      exact absurd hcut (by decide)
    | cons b bytes =>
      rw [hbytes, show (block.span.start + 1 - block.span.start).toNat = 1 by omega] at hcut
      refine ⟨bytes, hbytes.trans ?_⟩
      rw [show b = 0x7b from (List.cons.inj hcut).1.symm]
  · intro m hm
    obtain ⟨type, htype, hm⟩ := List.mem_flatMap.mp hm
    obtain ⟨property, hproperty, htype⟩ := List.mem_filterMap.mp htype
    obtain ⟨ascription, hascription, htype⟩ := Option.bind_eq_some_iff.mp htype
    have hnamed := List.mem_of_mem_filter hproperty
    have hwell' := (hwell.namedChild hnamed).wellFormed
    have hlies := hwell'.child? hascription
    have hin := ((hlies.wellFormed.liesIn_ascribedType? htype).mono hlies.inside)
    have hmention : m.span.In type.span := by
      split at hm
      · rw [List.mem_singleton.mp hm]
        exact hin.wellFormed.self.inside
      · exact (Mention.row_ofType hin.wellFormed .property).1.inside _ (List.mem_map_of_mem hm)
    have hbefore : first.span.Before property.span :=
      hbegins.behind hwell (List.mem_of_mem_filter hnamed) (Or.inl (List.mem_filter.mp hnamed).2)
    have hstart := (hmention.trans hin.inside).1
    unfold Span.Before at hbefore
    omega

/-- What has a role in an alias or an interface stands behind the word. -/
theorem start_lt_of_word {node part : Node} {word : String} {field : Field}
    (hwell : node.WellFormed source) (hopened : node.Opened source)
    (hword : node.kind.opening? = some word) (hlong : 0 < (Bytes.ofString word).length)
    (hpart : node.child? field = some part) : node.span.start < part.span.start := by
  obtain ⟨first, rest, hbegins⟩ := hopened.begins hword
  have hrole : part.field = some field := by simpa using List.find?_some hpart
  have hbefore : first.span.Before part.span :=
    hbegins.behind hwell (List.mem_of_find?_eq_some hpart) (Or.inr (by rw [hrole]; simp))
  have hlength := hbegins.length hwell
  unfold Span.Before at hbefore
  omega

/-- **A declaration** that is read off a node begins as it should. -/
theorem opened_of_declaration? {statement node : Node} {d : Declaration}
    (hnode : OpensIn source statement.span node)
    (h : declaration? path source statement node = some d) : d.Opened source := by
  have hwell := hnode.liesIn.wellFormed
  have hstart := hnode.liesIn.inside.1
  have hat := declaredAt_of_declaration? h
  cases hat.declaredAs with
  | ofAlias value hkind hvalue hshape hbody hcontent =>
    have hopening : node.kind.opening? = some "type" := by
      rw [hkind]
      rfl
    have hword := start_lt_of_word hwell hnode.opened hopening (by decide) hvalue
    have hbraced : value.kind = .objectType → _ := braced_of_objectType
      (hwell.child? hvalue).wellFormed (hnode.opened.child (List.mem_of_find?_eq_some hvalue))
    have hmembers : d.hasMembers = true → value.kind = .objectType := by
      rw [Declaration.hasMembers, hshape]
      exact beq_iff_eq.mp
    refine ⟨fun _ => ?_, fun h => ?_, fun h => ?_⟩
    · rw [hat.statement, hbody]
      exact hstart.trans_lt hword
    · rw [hcontent]
      exact (hbraced (hmembers h)).1
    · rw [Declaration.bodyMentions, hshape, hbody]
      dsimp only
      rw [if_pos (hmembers h)]
      exact (hbraced (hmembers h)).2
  | ofInterface block hkind hblock hshape hbody hcontent =>
    have hopening : node.kind.opening? = some "interface" := by
      rw [hkind]
      rfl
    have hword := start_lt_of_word hwell hnode.opened hopening (by decide) hblock
    obtain ⟨hbraced, hmembers⟩ := braced_of_objectType (hwell.child? hblock).wellFormed
      (hnode.opened.child (List.mem_of_find?_eq_some hblock)) (hnode.opened.block hkind hblock)
    refine ⟨fun _ => ?_, fun _ => ?_, fun _ => ?_⟩
    · rw [hat.statement, hbody]
      exact hstart.trans_lt hword
    · rw [hcontent]
      exact hbraced
    · rw [Declaration.bodyMentions, hshape, hbody]
      exact hmembers
  | ofEnumeration _ _ hshape =>
    exact ⟨fun h => absurd h (by simp [Declaration.isEnumeration, hshape]),
      fun h => absurd h (by simp [Declaration.hasMembers, hshape]),
      fun h => absurd h (by simp [Declaration.hasMembers, hshape])⟩

/-! ### Statements -/

variable {o o' : Outline} {events : List Event}

theorem Opened.of_same (h : o.Opened) (hsource : o'.source = o.source)
    (hdeclarations : o'.declarations = o.declarations) : o'.Opened := by
  intro name d hd
  rw [hsource]
  exact h name d (hdeclarations ▸ hd)

theorem Opened.declare {d : Declaration} (h : o.Opened) (hd : d.Opened o.source)
    (hdeclare : declare strict d o = .ok (o', events)) : o'.Opened := by
  have hput : Opened { o with declarations := o.declarations.put d.name d } := by
    intro name d' hd'
    rw [Table.get?_put] at hd'
    split at hd'
    · rw [← Option.some.inj hd']
      exact hd
    · exact h name d' hd'
  unfold Outline.declare at hdeclare
  split at hdeclare
  · obtain ⟨rfl, -⟩ := Prod.mk.inj (Except.ok.inj hdeclare)
    exact hput
  · split at hdeclare
    · exact absurd hdeclare (by simp)
    · obtain ⟨rfl, -⟩ := Prod.mk.inj (Except.ok.inj hdeclare)
      exact hput

/-- **Every part of a scan** keeps the declarations beginning as they should. -/
theorem Scans.opened {tree : Node} {base : Span} (h : Scans strict tree base o events o') :
    o'.source = o.source ∧
    (tree.WellFormed o.source → tree.Opened o.source → o.Opened → o'.Opened) := by
  induction h with
  | nothing => exact ⟨rfl, fun _ _ ho => ho⟩
  | default name => exact ⟨rfl, fun _ _ ho => ho.of_same rfl rfl⟩
  | @imports o node _ =>
    have hsource := (grows_addImport node o).source
    exact ⟨hsource, fun _ _ ho => ho.of_same hsource (import_of_addImport node o).1⟩
  | @exports o node _ =>
    have hsource := (grows_addExports node o).source
    exact ⟨hsource, fun _ _ ho => ho.of_same hsource (same_addExports node o).1⟩
  | declares hstatement hnode hd hdeclare =>
    have hgrows := grows_of_declare hd hdeclare
    refine ⟨hgrows.source,
      fun htree hopened ho => ho.declare (opened_of_declaration? ⟨?_, ?_⟩ hd) hdeclare⟩
    · exact (htree.under hstatement).wellFormed.under hnode
    · exact hopened.under (hnode.trans hstatement)
  | both _ _ ih ih' =>
    obtain ⟨hsource, hopens⟩ := ih
    obtain ⟨hsource', hopens'⟩ := ih'
    rw [hsource] at hopens'
    exact ⟨hsource'.trans hsource, fun htree hopened ho =>
      hopens' htree hopened (hopens htree hopened ho)⟩
  | within _ _ ih => exact ih

/-- **All declarations of a script** begin as they should. -/
theorem opened_ofTree {dialect : Syntax.Script.Dialect} {tree : Node} {events : List Event}
    (htree : Script.tree dialect path source = .ok tree)
    (h : ofTree strict path source tree = .ok (o, events)) : o.Opened :=
  (scans_ofTree (Script.isScript_of_tree htree).wellFormed h).opened.2
    (Script.isScript_of_tree htree).wellFormed (Script.opened_of_tree htree)
    fun _ _ hd => absurd hd (by simp [empty])

end Outline

end TypeGraft
