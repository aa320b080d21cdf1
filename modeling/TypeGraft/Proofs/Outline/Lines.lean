import TypeGraft.Proofs.Outline.Layout
import TypeGraft.Proofs.Outline.Scans

/-!
# Lines of what a scan finds

A scan notes the line of each declaration and of each name that is imported or passed on. It counts
them in its own source, from the position at which the node starts, and so do the warnings of names
that are declared twice (`TypeGraft.Outline.lined_ofTree`).
-/

namespace TypeGraft

open Syntax

/-- **The line of a binding** is that of its position, which lies in the source. -/
structure Binding.Lined (source : Bytes) (b : Binding) : Prop where
  line : b.line = Outline.lineAt source b.span.start
  inside : b.span.In (.whole source)

namespace Outline

variable {strict : Bool} {tree : Node} {o o' : Outline} {events : List Event} {path : String}
  {source : Bytes}

/-- The line and the position of a declaration are those of its node. -/
theorem line_of_declaration? {statement node : Node} {d : Declaration}
    (h : declaration? path source statement node = some d) :
    d.line = lineAt source d.span.start ∧ d.span = node.span := by
  have hat := declaredAt_of_declaration? h
  exact ⟨hat.span ▸ hat.line, hat.span⟩

/-- A declaration that is written in a tree. -/
def Writes (path : String) (source : Bytes) (tree : Node) (d : Declaration) : Prop :=
  ∃ statement node, statement.Under tree ∧ node.Under statement ∧
    declaration? path source statement node = some d

/-- **A declaration that is written in a tree** has the line of its position. It lies in the source,
and so does all that it mentions. -/
theorem Writes.lined {d : Declaration} (h : Writes path source tree d)
    (htree : tree.WellFormed source) :
    d.line = lineAt source d.span.start ∧ d.span.In (.whole source) ∧
      ∀ m ∈ d.mentions source, m.span.In (.whole source) := by
  obtain ⟨statement, node, hstatement, hnode, hd⟩ := h
  have hlies := htree.under hstatement
  obtain ⟨hline, hspan⟩ := line_of_declaration? hd
  obtain ⟨hlaid, -⟩ := laid_of_declaration? hlies.wellFormed (hlies.wellFormed.under hnode) hd
  refine ⟨hline, ?_, fun m hm => ?_⟩
  · rw [hspan]
    exact (htree.under (hnode.trans hstatement)).wellFormed.cuts.inside
  · exact (hlaid.row_mentions.inside _ (List.mem_map_of_mem hm)).trans hlaid.statement.inside

/-- A warning of two declarations of one name, one behind the other, with the lines of both. -/
def Redeclares (path : String) (source : Bytes) (tree : Node) (e : Event) : Prop :=
  ∃ first d, Writes path source tree first ∧ Writes path source tree d ∧ first.name = d.name ∧
    first.span.Before d.span ∧ e = .redeclared path d.line d.name first.line

/-- All declarations end before a position. -/
def EndsBy (position : Int) (o : Outline) : Prop :=
  ∀ name d, o.declarations.get? name = some d → d.span.stop ≤ position

/-- **What an outline says of lines** is so in its source. -/
structure Lined (tree : Node) (o : Outline) : Prop where
  declarations : ∀ name d, o.declarations.get? name = some d →
    d.name = name ∧ Writes o.path o.source tree d
  imports : ∀ name b, o.imports.get? name = some b → b.Lined o.source
  reexports : ∀ name b, o.reexports.get? name = some b → b.Lined o.source

theorem lined_empty (path : String) (source : Bytes) (tree : Node) :
    (empty path source).Lined tree :=
  ⟨fun _ _ h => absurd h (by simp [empty]), fun _ _ h => absurd h (by simp [empty]),
    fun _ _ h => absurd h (by simp [empty])⟩

theorem lined_binding {node : Node} (htree : tree.WellFormed source) (hnode : node.Under tree)
    (name foreignName specifier : String) :
    (binding source name foreignName specifier node).Lined source :=
  ⟨rfl, (htree.under hnode).inside.trans htree.cuts.inside⟩

theorem lined_partBindings {part : Node} (htree : tree.WellFormed source) (hpart : part.Under tree)
    (specifier : String) : ∀ b ∈ partBindings source specifier part, b.Lined source := by
  intro b hb
  unfold partBindings at hb
  split at hb
  · rw [List.mem_singleton.mp hb]
    exact lined_binding htree hpart _ _ _
  · obtain ⟨entry, hentry, rfl⟩ := List.mem_map.mp hb
    obtain ⟨node, hnode, rfl⟩ := List.mem_map.mp hentry
    exact lined_binding htree (hpart.namedChild (List.mem_of_mem_filter hnode)) _ _ _
  · exact absurd hb List.not_mem_nil

namespace Lined

theorem addImport {node : Node} (h : o.Lined tree) (htree : tree.WellFormed o.source)
    (hnode : node.Under tree) : (addImport node o).Lined tree := by
  unfold Outline.addImport
  split
  · exact h
  · refine ⟨h.declarations, fun name b hb => ?_, h.reexports⟩
    refine (Table.of_get?_foldl_put hb).elim (fun hb => ?_) (h.imports name b)
    obtain ⟨part, hpart, hb⟩ := List.mem_flatMap.mp hb
    refine lined_partBindings htree ?_ _ b hb
    cases hclause : node.childOfKind? .importClause with
    | none =>
      rw [hclause] at hpart
      exact absurd hpart List.not_mem_nil
    | some clause =>
      rw [hclause] at hpart
      exact (hnode.namedChild (List.mem_of_find?_eq_some hclause)).namedChild hpart

theorem addExports {node : Node} (h : o.Lined tree) (htree : tree.WellFormed o.source)
    (hnode : node.Under tree) : (addExports node o).Lined tree := by
  have hfold : ∀ (specifier : Option String) (entries : List Node) (o : Outline),
      tree.WellFormed o.source → (∀ entry ∈ entries, entry.Under tree) → o.Lined tree →
        (entries.foldl (addExport specifier) o).Lined tree := by
    intro specifier entries
    induction entries with
    | nil => exact fun o _ _ h => h
    | cons entry rest ih =>
      intro o htree hentries h
      have hrest := fun e he => hentries e (List.mem_cons_of_mem _ he)
      rw [List.foldl_cons]
      cases specifier with
      | none => exact ih _ htree hrest ⟨h.declarations, h.imports, h.reexports⟩
      | some specifier =>
        refine ih _ htree hrest ⟨h.declarations, h.imports, fun name b hb => ?_⟩
        rw [addExport, Table.get?_put] at hb
        split at hb
        · rw [← Option.some.inj hb]
          exact lined_binding htree (hentries entry List.mem_cons_self) _ _ _
        · exact h.reexports name b hb
  unfold Outline.addExports
  split
  · next clause hclause =>
    refine hfold _ _ o htree (fun entry hentry => ?_) h
    exact (hnode.namedChild (List.mem_of_find?_eq_some hclause)).namedChild
      (List.mem_of_mem_filter hentry)
  · dsimp only
    split
    · split
      · exact ⟨h.declarations, h.imports, h.reexports⟩
      · exact h
    · exact h

theorem declare {d : Declaration} (h : o.Lined tree) (hends : o.EndsBy d.span.start)
    (hd : Writes o.path o.source tree d) (hrange : d.span.start ≤ d.span.stop)
    (hdeclare : declare strict d o = .ok (o', events)) :
    o'.Lined tree ∧ o'.EndsBy d.span.stop ∧ ∀ e ∈ events, Redeclares o.path o.source tree e := by
  have hput : Lined tree { o with declarations := o.declarations.put d.name d } ∧
      EndsBy d.span.stop { o with declarations := o.declarations.put d.name d } := by
    refine ⟨⟨fun name d' hd' => ?_, h.imports, h.reexports⟩, fun name d' hd' => ?_⟩
    · rw [Table.get?_put] at hd'
      split at hd'
      · next hname =>
        rw [← Option.some.inj hd']
        exact ⟨hname, hd⟩
      · exact h.declarations name d' hd'
    · rw [Table.get?_put] at hd'
      split at hd'
      · rw [← Option.some.inj hd']
      · exact (hends name d' hd').trans hrange
  unfold Outline.declare at hdeclare
  split at hdeclare
  · obtain ⟨rfl, rfl⟩ := Prod.mk.inj (Except.ok.inj hdeclare)
    exact ⟨hput.1, hput.2, fun _ he => absurd he List.not_mem_nil⟩
  · next first hfirst =>
    split at hdeclare
    · exact absurd hdeclare (by simp)
    · obtain ⟨rfl, rfl⟩ := Prod.mk.inj (Except.ok.inj hdeclare)
      obtain ⟨hname, hwritten⟩ := h.declarations _ first hfirst
      exact ⟨hput.1, hput.2, fun e he =>
        ⟨first, d, hwritten, hd, hname, hends _ first hfirst, List.mem_singleton.mp he⟩⟩

end Lined

/-- **Every part of a scan** keeps the lines right, and warns of the lines of two declarations. -/
theorem Scans.lined {base : Span} (h : Scans strict tree base o events o') :
    o'.path = o.path ∧ o'.source = o.source ∧
    (tree.WellFormed o.source → o.Lined tree → o.EndsBy base.start →
      o'.Lined tree ∧ o'.EndsBy base.stop ∧ ∀ e ∈ events, Redeclares o.path o.source tree e) := by
  have hsilent : ∀ {P : Event → Prop}, ∀ e ∈ ([] : List Event), P e :=
    fun _ h => absurd h List.not_mem_nil
  induction h with
  | nothing => exact ⟨rfl, rfl, fun _ h hends => ⟨h, hends, hsilent⟩⟩
  | default name =>
    exact ⟨rfl, rfl, fun _ h hends => ⟨⟨h.declarations, h.imports, h.reexports⟩, hends, hsilent⟩⟩
  | @imports o node hnode =>
    have hgrows := grows_addImport node o
    refine ⟨hgrows.path, hgrows.source, fun htree h hends => ⟨h.addImport htree hnode, ?_, hsilent⟩⟩
    unfold EndsBy
    rw [(import_of_addImport node o).1]
    exact hends
  | @exports o node hnode =>
    have hgrows := grows_addExports node o
    refine ⟨hgrows.path, hgrows.source,
      fun htree h hends => ⟨h.addExports htree hnode, ?_, hsilent⟩⟩
    unfold EndsBy
    rw [(same_addExports node o).1]
    exact hends
  | declares hstatement hnode hd hdeclare =>
    have hgrows := grows_of_declare hd hdeclare
    refine ⟨hgrows.path, hgrows.source, fun htree h hends => ?_⟩
    have hrange := (htree.under (hnode.trans hstatement)).wellFormed.range
    -- the declaration takes the place of its node, behind all that was declared before
    rw [← (line_of_declaration? hd).2] at hends hrange ⊢
    exact h.declare hends ⟨_, _, hstatement, hnode, hd⟩ hrange hdeclare
  | both _ _ ih ih' =>
    obtain ⟨hpath, hsource, hlined⟩ := ih
    obtain ⟨hpath', hsource', hlined'⟩ := ih'
    rw [hpath, hsource] at hlined'
    refine ⟨hpath'.trans hpath, hsource'.trans hsource, fun htree h hends => ?_⟩
    obtain ⟨h₁, hends₁, hwarned⟩ := hlined htree h hends
    obtain ⟨h₂, hends₂, hwarned'⟩ := hlined' htree h₁ hends₁
    exact ⟨h₂, hends₂, fun e he => (List.mem_append.mp he).elim (hwarned e) (hwarned' e)⟩
  | within _ hwide ih =>
    obtain ⟨hpath, hsource, hlined⟩ := ih
    refine ⟨hpath, hsource, fun htree h hends => ?_⟩
    obtain ⟨h', hends', hwarned⟩ := hlined htree h fun name d hd => (hends name d hd).trans hwide.1
    exact ⟨h', fun name d hd => (hends' name d hd).trans hwide.2.2, hwarned⟩

/-- **A scan of a well-formed tree** has the lines right, and warns of the lines of two
declarations. -/
theorem lined_ofTree (htree : tree.WellFormed source)
    (h : ofTree strict path source tree = .ok (o, events)) :
    o.Lined tree ∧ ∀ e ∈ events, Redeclares path source tree e := by
  obtain ⟨hlined, -, hwarned⟩ :=
    (scans_ofTree htree h).lined.2.2 htree (lined_empty path source tree)
      fun _ _ hd => absurd hd (by simp [empty])
  exact ⟨hlined, hwarned⟩

end Outline

end TypeGraft
