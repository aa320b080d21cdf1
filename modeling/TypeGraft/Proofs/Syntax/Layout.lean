import TypeGraft.Mention
import TypeGraft.Proofs.Replacement
import TypeGraft.Request

/-!
# How the nodes of a tree lie

In a well-formed tree (`TypeGraft.Syntax.Node.WellFormed`) the children of a node lie inside of it,
one behind the other, and every node starts and ends where the text can be cut. What has a role also
stands in its place (`Node.Shaped`): a name that is applied to types stands in front of them, the
types that an interface extends in front of its members, and a statement does not do two things at
once.

So the nodes that name types in a type lie in it one behind the other
(`TypeGraft.Syntax.Node.WellFormed.row_typeNames`), and so do the requests of a script
(`TypeGraft.Request.row_ofTree`).
-/

namespace TypeGraft

/-- **A span of a text**, which starts and ends where the text can be cut. -/
structure Span.Cuts (source : Bytes) (a : Span) : Prop where
  inside : a.In (.whole source)
  encoded : source.Encoded →
    Slots.CutAt source (.whole source) a.start ∧ Slots.CutAt source (.whole source) a.stop

namespace Syntax.Node

variable {source : Bytes} {node : Node}

/-- **What has a role stands in its place.** -/
structure Shaped (source : Bytes) (node : Node) : Prop where
  name : node.kind = .typeIdentifier ∨ node.kind = .qualifiedType →
    node.span.start < node.span.stop
  legible : node.kind = .typeIdentifier → (node.bytes source).Encoded
  /-- What is applied to types has a name, which stands in front of them. -/
  applied : node.kind = .genericType → ∃ name, node.child? .name = some name ∧
    name.span.start < name.span.stop ∧
    ∀ child ∈ node.children, child.kind = .typeArguments → name.span.Before child.span
  /-- What an interface extends stands in front of its block. -/
  extended : node.kind = .interface → ∀ block, node.child? .body = some block →
    ∀ clause ∈ node.children, clause.kind = .extendsClause → clause.span.Before block.span
  /-- Imports and exports are not part of other statements. -/
  plain : node.kind = .ambient ∨ node.kind = .exportStatement → ∀ child ∈ node.children,
    child.kind ≠ .importStatement ∧ child.kind ≠ .exportStatement
  /-- An export has a declaration or a value, but not both. -/
  exported : node.kind = .exportStatement →
    (∀ child ∈ node.children, child.field ≠ some .declaration) ∨
      ∀ child ∈ node.children, child.field ≠ some .value

/-- **A well-formed tree.** -/
inductive WellFormed (source : Bytes) : Node → Prop where
  | intro {node : Node} (cuts : node.span.Cuts source)
      (row : Span.Row node.span (node.children.map (·.span))) (shaped : node.Shaped source)
      (children : ∀ child ∈ node.children, child.WellFormed source) : node.WellFormed source

/-- Whether a line break stands at a position. -/
def BreaksLine (source : Bytes) (position : Int) : Prop :=
  (source.drop position.toNat).head? = some 10 ∨ (source.drop position.toNat).head? = some 13

/-- **The tree of a script**: it is well-formed, and no statement starts with a line break. -/
structure IsScript (source : Bytes) (tree : Node) : Prop where
  wellFormed : tree.WellFormed source
  starts : ∀ stmt ∈ tree.namedChildren, ¬BreaksLine source stmt.span.start

/-- A well-formed node that lies in a span. -/
structure LiesIn (source : Bytes) (base : Span) (node : Node) : Prop where
  wellFormed : node.WellFormed source
  inside : node.span.In base

namespace WellFormed

variable (h : node.WellFormed source)

include h

theorem cuts : node.span.Cuts source := by
  cases h with | intro cuts => exact cuts

theorem row : Span.Row node.span (node.children.map (·.span)) := by
  cases h with | intro _ row => exact row

theorem shaped : node.Shaped source := by
  cases h with | intro _ _ shaped => exact shaped

theorem range : node.span.start ≤ node.span.stop := h.cuts.inside.2.1

theorem self : node.LiesIn source node.span := ⟨h, le_rfl, h.range, le_rfl⟩

theorem child {child : Node} (hchild : child ∈ node.children) : child.LiesIn source node.span := by
  refine ⟨?_, h.row.inside _ (List.mem_map_of_mem hchild)⟩
  cases h with | intro _ _ _ children => exact children child hchild

theorem child? {field : Field} {child : Node} (hchild : node.child? field = some child) :
    child.LiesIn source node.span :=
  h.child (List.mem_of_find?_eq_some hchild)

theorem namedChild {child : Node} (hchild : child ∈ node.namedChildren) :
    child.LiesIn source node.span :=
  h.child (List.mem_of_mem_filter hchild)

end WellFormed

theorem LiesIn.mono {base wide : Span} (h : node.LiesIn source base) (hwide : base.In wide) :
    node.LiesIn source wide := ⟨h.wellFormed, h.inside.trans hwide⟩

/-! ### Nodes in a row -/

/-- Well-formed nodes, in `base` one behind the other. -/
structure NodesIn (source : Bytes) (base : Span) (nodes : List Node) : Prop where
  row : Span.Row base (nodes.map (·.span))
  wellFormed : ∀ node ∈ nodes, node.WellFormed source

namespace NodesIn

variable {base : Span} {nodes : List Node}

theorem nil (source : Bytes) (base : Span) : NodesIn source base [] :=
  ⟨.nil base, fun _ h => absurd h List.not_mem_nil⟩

theorem single (h : node.LiesIn source base) : NodesIn source base [node] :=
  ⟨.single h.inside, fun _ hn => List.mem_singleton.mp hn ▸ h.wellFormed⟩

theorem append {others : List Node} (h : NodesIn source base nodes)
    (h' : NodesIn source base others)
    (hbefore : ∀ a ∈ nodes, ∀ b ∈ others, a.span.Before b.span) :
    NodesIn source base (nodes ++ others) where
  row := by
    rw [List.map_append]
    refine h.row.append h'.row fun a ha b hb => ?_
    obtain ⟨x, hx, rfl⟩ := List.mem_map.mp ha
    obtain ⟨y, hy, rfl⟩ := List.mem_map.mp hb
    exact hbefore x hx y hy
  wellFormed x hx := (List.mem_append.mp hx).elim (h.wellFormed x) (h'.wellFormed x)

theorem flatMap {parts : Node → List Node} (h : Span.Row base (nodes.map (·.span)))
    (hparts : ∀ node ∈ nodes, NodesIn source node.span (parts node)) :
    NodesIn source base (nodes.flatMap parts) where
  row := by
    rw [List.map_flatMap]
    exact h.flatMap fun node hnode => (hparts node hnode).row
  wellFormed := by
    intro part hpart
    obtain ⟨node, hnode, hpart⟩ := List.mem_flatMap.mp hpart
    exact (hparts node hnode).wellFormed part hpart

/-- Nodes of which each leads to one node in it, if to any. -/
theorem filterMap {part? : Node → Option Node} (h : Span.Row base (nodes.map (·.span)))
    (hparts : ∀ node ∈ nodes, ∀ part, part? node = some part → part.LiesIn source node.span) :
    NodesIn source base (nodes.filterMap part?) where
  row := h.filterMap fun node hnode part hpart => (hparts node hnode part hpart).inside
  wellFormed := by
    intro part hpart
    obtain ⟨node, hnode, hpart⟩ := List.mem_filterMap.mp hpart
    exact (hparts node hnode part hpart).wellFormed

theorem mono {wide : Span} (h : NodesIn source base nodes) (hwide : base.In wide) :
    NodesIn source wide nodes := ⟨h.row.mono hwide, h.wellFormed⟩

theorem sublist {some : List Node} (h : NodesIn source base nodes) (hsome : some.Sublist nodes) :
    NodesIn source base some :=
  ⟨h.row.sublist (hsome.map _), fun n hn => h.wellFormed n (hsome.subset hn)⟩

theorem liesIn (h : NodesIn source base nodes) (hnode : node ∈ nodes) : node.LiesIn source base :=
  ⟨h.wellFormed node hnode, h.row.inside _ (List.mem_map_of_mem hnode)⟩

end NodesIn

/-! ### The names in a type -/

theorem typeNamesOfNamed_eq (children : List Node) :
    typeNamesOfNamed children = (children.filter (·.kind.named)).flatMap typeNames := by
  induction children with
  | nil => rw [typeNamesOfNamed]; rfl
  | cons child rest ih =>
    rw [typeNamesOfNamed, ih, List.filter_cons]
    split
    · rfl
    · rfl

theorem typeNamesOfArguments_eq (children : List Node) : typeNamesOfArguments children =
    (children.find? (·.kind == .typeArguments)).elim [] typeNames := by
  induction children with
  | nil => rw [typeNamesOfArguments]; rfl
  | cons child rest ih =>
    rw [typeNamesOfArguments, ih, List.find?_cons]
    split
    · next hkind => rw [hkind]; rfl
    · next hkind => rw [beq_false_of_ne hkind]

theorem WellFormed.nodesIn (h : node.WellFormed source) :
    NodesIn source node.span node.children :=
  ⟨h.row, fun _ hc => (h.child hc).wellFormed⟩

mutual

theorem kind_of_mem_typeNames {name : Node} :
    (node : Node) → name ∈ node.typeNames → name.kind = .typeIdentifier
  | .mk kind field span children, h => by
    have heach : ∀ node ∈ children, name ∈ node.typeNames → name.kind = .typeIdentifier :=
      kind_of_mem_each children
    rw [typeNames, typeNamesOfNamed_eq, typeNamesOfArguments_eq] at h
    split at h
    · next hkind => rw [List.mem_singleton.mp h]; exact hkind
    · split at h
      · rcases List.mem_append.mp h with h | h
        · simpa using (Option.mem_filter_iff.mp (Option.mem_toList.mp h)).2
        · cases hfind : children.find? (·.kind == .typeArguments) with
          | none => rw [hfind] at h; exact absurd h List.not_mem_nil
          | some child =>
            rw [hfind] at h
            exact heach child (List.mem_of_find?_eq_some hfind) h
      · split at h
        · obtain ⟨child, hchild, h⟩ := List.mem_flatMap.mp h
          exact heach child (List.mem_of_mem_filter hchild) h
        · exact absurd h List.not_mem_nil

theorem kind_of_mem_each {name : Node} :
    (nodes : List Node) → ∀ node ∈ nodes, name ∈ node.typeNames → name.kind = .typeIdentifier
  | [] => fun _ h => absurd h List.not_mem_nil
  | node :: rest => by
    have hnode : name ∈ node.typeNames → name.kind = .typeIdentifier := kind_of_mem_typeNames node
    exact List.forall_mem_cons.mpr ⟨hnode, kind_of_mem_each rest⟩

end

mutual

/-- **The names in a type** lie in it one behind the other. -/
theorem WellFormed.nodesIn_typeNames :
    (node : Node) → node.WellFormed source → NodesIn source node.span node.typeNames
  | .mk kind field span children, h => by
    have heach := nodesIn_each children fun c hc => (h.child hc).wellFormed
    rw [typeNames]
    split
    · exact .single h.self
    · split
      · next hkind =>
        obtain ⟨name, hname, -, hbefore⟩ := h.shaped.applied hkind
        have hlies := h.child? hname
        rw [show children.find? (·.field == some .name) = some name from hname,
          typeNamesOfArguments_eq]
        have hnames : NodesIn source (Node.mk kind field span children).span
            ((some name).filter (·.kind == .typeIdentifier)).toList := by
          rw [Option.filter_some]
          split
          · exact .single hlies
          · exact .nil source _
        cases hfind : children.find? (·.kind == .typeArguments) with
        | none =>
          rw [Option.elim_none, List.append_nil]
          exact hnames
        | some child =>
          have hchild := List.mem_of_find?_eq_some hfind
          have hin := heach child hchild
          have hkind : child.kind = .typeArguments := by
            simpa using List.find?_some hfind
          refine hnames.append (hin.mono (h.child hchild).inside) fun a ha b hb => ?_
          obtain rfl : name = a :=
            Option.some.inj (Option.mem_filter_iff.mp (Option.mem_toList.mp ha)).1
          exact (hbefore child hchild hkind).mono hlies.wellFormed.self.inside
            (hin.liesIn hb).inside
      · split
        · rw [typeNamesOfNamed_eq]
          exact .flatMap (h.nodesIn.sublist List.filter_sublist).row
            fun c hc => heach c (List.mem_of_mem_filter hc)
        · exact .nil source _

theorem nodesIn_each : (nodes : List Node) → (∀ node ∈ nodes, node.WellFormed source) →
    ∀ node ∈ nodes, NodesIn source node.span node.typeNames
  | [], _ => fun _ h => absurd h List.not_mem_nil
  | node :: rest, h => by
    have hnode := WellFormed.nodesIn_typeNames node (h node List.mem_cons_self)
    have hrest := nodesIn_each rest fun c hc => h c (List.mem_cons_of_mem _ hc)
    exact List.forall_mem_cons.mpr ⟨hnode, hrest⟩

end

theorem WellFormed.liesIn_ascribedType? (h : node.WellFormed source) {type : Node}
    (htype : node.ascribedType? = some type) : type.LiesIn source node.span := by
  unfold ascribedType? at htype
  split at htype
  · exact h.namedChild (List.mem_of_head? htype)
  · rw [← Option.some.inj htype]
    exact h.self

/-- The types of the properties of an object type lie in it. -/
theorem WellFormed.nodesIn_propertyTypes (h : node.WellFormed source) :
    NodesIn source node.span node.propertyTypes := by
  refine .filterMap ((h.nodesIn.sublist List.filter_sublist).sublist List.filter_sublist).row ?_
  intro property hproperty type htype
  obtain ⟨ascription, hascription, htype⟩ := Option.bind_eq_some_iff.mp htype
  have hwell := (h.namedChild (List.mem_of_mem_filter hproperty)).wellFormed
  have hlies := hwell.child? hascription
  exact (hlies.wellFormed.liesIn_ascribedType? htype).mono hlies.inside

end Syntax.Node

/-! ### Requests -/

namespace Request

open Syntax Syntax.Node

variable {source : Bytes}

theorem declared_eq (children : List Node) : expressions.declared children =
    (children.find? (·.field == some .declaration)).elim [] expressions := by
  induction children with
  | nil => rw [expressions.declared]; rfl
  | cons child rest ih =>
    rw [expressions.declared, ih, List.find?_cons]
    split
    · next hfield => rw [hfield]; rfl
    · next hfield => rw [beq_false_of_ne hfield]

/-- An export with a declaration has no value. -/
theorem find?_value_of_declaration {node child : Node} (h : node.WellFormed source)
    (hkind : node.kind = .exportStatement)
    (hchild : node.children.find? (·.field == some .declaration) = some child) :
    node.children.find? (·.field == some .value) = none := by
  rw [List.find?_eq_none]
  intro c hc
  rcases h.shaped.exported hkind with hno | hno
  · exact absurd (by simpa using List.find?_some hchild)
      (hno child (List.mem_of_find?_eq_some hchild))
  · simpa using hno c hc

mutual

/-- The expressions of a statement lie in it. -/
theorem nodesIn_expressions :
    (node : Node) → node.WellFormed source → NodesIn source node.span (expressions node)
  | .mk kind field span children, h => by
    have heach := nodesIn_expressions_each children fun c hc => (h.child hc).wellFormed
    unfold expressions
    split
    · exact h.nodesIn.sublist List.filter_sublist
    · refine .filterMap (h.nodesIn.sublist List.filter_sublist).row ?_
      intro declarator hdeclarator value hvalue
      exact (h.child (List.mem_of_mem_filter hdeclarator)).wellFormed.child? hvalue
    · have hvalue : NodesIn source (Node.mk .exportStatement field span children).span
          (children.find? (·.field == some .value)).toList := by
        cases hfind : children.find? (·.field == some .value) with
        | none => exact .nil source _
        | some value => exact .single (h.child (List.mem_of_find?_eq_some hfind))
      rw [declared_eq]
      cases hfind : children.find? (·.field == some .declaration) with
      | none => exact hvalue
      | some child =>
        have hchild := List.mem_of_find?_eq_some hfind
        have hnone : children.find? (·.field == some .value) = none :=
          find?_value_of_declaration h rfl hfind
        rw [hnone]
        exact ((heach child hchild).mono (h.child hchild).inside).append (.nil source _)
          fun _ _ _ hb => absurd hb List.not_mem_nil
    · exact .nil source _

theorem nodesIn_expressions_each : (nodes : List Node) → (∀ node ∈ nodes, node.WellFormed source) →
    ∀ node ∈ nodes, NodesIn source node.span (expressions node)
  | [], _ => fun _ h => absurd h List.not_mem_nil
  | node :: rest, h => by
    have hnode := nodesIn_expressions node (h node List.mem_cons_self)
    have hrest := nodesIn_expressions_each rest fun c hc => h c (List.mem_cons_of_mem _ hc)
    exact List.forall_mem_cons.mpr ⟨hnode, hrest⟩

end

theorem first?_eq (children : List Node) :
    unwrapped?.first? children = (children.find? (·.kind.named)).bind unwrapped? := by
  induction children with
  | nil => rw [unwrapped?.first?]; rfl
  | cons child rest ih =>
    rw [unwrapped?.first?, ih, List.find?_cons]
    split
    · next hnamed => rw [hnamed]; rfl
    · next hnamed => rw [Bool.eq_false_of_not_eq_true hnamed]

mutual

/-- What stands in parentheses lies in them. -/
theorem liesIn_unwrapped? {inner : Node} : (node : Node) → node.WellFormed source →
    unwrapped? node = some inner → inner.LiesIn source node.span
  | .mk kind field span children, h, hinner => by
    have heach : ∀ node ∈ children, unwrapped? node = some inner → inner.LiesIn source node.span :=
      liesIn_unwrapped?_each children fun c hc => (h.child hc).wellFormed
    unfold unwrapped? at hinner
    split at hinner
    · rw [first?_eq] at hinner
      obtain ⟨child, hchild, hinner⟩ := Option.bind_eq_some_iff.mp hinner
      have hmem := List.mem_of_find?_eq_some hchild
      exact (heach child hmem hinner).mono (h.child hmem).inside
    · rw [← Option.some.inj hinner]
      exact h.self

theorem liesIn_unwrapped?_each {inner : Node} : (nodes : List Node) →
    (∀ node ∈ nodes, node.WellFormed source) →
    ∀ node ∈ nodes, unwrapped? node = some inner → inner.LiesIn source node.span
  | [], _ => fun _ h => absurd h List.not_mem_nil
  | node :: rest, h => by
    have hnode : unwrapped? node = some inner → inner.LiesIn source node.span :=
      liesIn_unwrapped? node (h node List.mem_cons_self)
    have hrest : ∀ c ∈ rest, unwrapped? c = some inner → inner.LiesIn source c.span :=
      liesIn_unwrapped?_each rest fun c hc => h c (List.mem_cons_of_mem _ hc)
    exact List.forall_mem_cons.mpr ⟨hnode, hrest⟩

end

theorem liesIn_innerCall? {expression call : Node} (h : expression.WellFormed source)
    (hcall : innerCall? source expression = some call) : call.LiesIn source expression.span := by
  unfold innerCall? at hcall
  obtain ⟨node, hnode, hcall⟩ := Option.bind_eq_some_iff.mp hcall
  have hlies := liesIn_unwrapped? expression h hnode
  split at hcall
  · obtain ⟨arguments, harguments, hcall⟩ := Option.bind_eq_some_iff.mp hcall
    have hargs := hlies.wellFormed.child? harguments
    exact ((hargs.wellFormed.namedChild (List.mem_of_head? hcall)).mono hargs.inside).mono
      hlies.inside
  · rw [← Option.some.inj hcall]
    exact hlies

/-- A request stands for a name in the expression that makes it. -/
theorem exists_of_ofExpression? {macros : List String} {expression : Node} {request : Request}
    (h : expression.WellFormed source)
    (hrequest : ofExpression? macros source expression = some request) :
    ∃ argument : Node, argument.LiesIn source expression.span ∧
      argument.kind = .typeIdentifier ∧ request.span = argument.span := by
  unfold ofExpression? at hrequest
  obtain ⟨call, hcall, hrequest⟩ := Option.bind_eq_some_iff.mp hrequest
  obtain ⟨-, -, hrequest⟩ := Option.bind_eq_some_iff.mp hrequest
  obtain ⟨name, -, hrequest⟩ := Option.bind_eq_some_iff.mp hrequest
  obtain ⟨-, -, hrequest⟩ := Option.bind_eq_some_iff.mp hrequest
  obtain ⟨arguments, harguments, hrequest⟩ := Option.bind_eq_some_iff.mp hrequest
  obtain ⟨argument, hargument, hrequest⟩ := Option.bind_eq_some_iff.mp hrequest
  obtain ⟨_, hguard, hrequest⟩ := Option.bind_eq_some_iff.mp hrequest
  have hkind : argument.kind = .typeIdentifier := by
    by_contra hne
    simp [guard, hne] at hguard
  have hlies := liesIn_innerCall? h hcall
  have hargs := hlies.wellFormed.child? harguments
  refine ⟨argument, ?_, hkind, ?_⟩
  · exact ((hargs.wellFormed.namedChild (List.mem_of_head? hargument)).mono hargs.inside).mono
      hlies.inside
  · rw [← Option.some.inj hrequest]

/-- **The requests of a script** lie one behind the other in the expressions of its statements. -/
theorem row_ofTree {macros : List String} {tree : Node} (h : tree.WellFormed source) :
    Span.Row tree.span ((ofTree macros source tree).map (·.span)) := by
  have hexpressions : NodesIn source tree.span (tree.namedChildren.flatMap expressions) :=
    .flatMap (h.nodesIn.sublist List.filter_sublist).row fun stmt hstmt =>
      nodesIn_expressions stmt (h.namedChild hstmt).wellFormed
  refine hexpressions.row.filterMap fun expression hexpression request hrequest => ?_
  obtain ⟨argument, hlies, -, hspan⟩ :=
    exists_of_ofExpression? (hexpressions.wellFormed expression hexpression) hrequest
  rw [hspan]
  exact hlies.inside

/-- A request stands in a statement that has expressions. -/
theorem exists_of_mem_ofTree {macros : List String} {tree : Node} {request : Request}
    (h : tree.WellFormed source) (hrequest : request ∈ ofTree macros source tree) :
    ∃ stmt ∈ tree.namedChildren, expressions stmt ≠ [] ∧ ∃ argument : Node,
      argument.LiesIn source stmt.span ∧ argument.kind = .typeIdentifier ∧
      request.span = argument.span := by
  obtain ⟨expression, hexpression, hrequest⟩ := List.mem_filterMap.mp hrequest
  obtain ⟨stmt, hstmt, hexpression⟩ := List.mem_flatMap.mp hexpression
  have hlies := (nodesIn_expressions stmt (h.namedChild hstmt).wellFormed).liesIn hexpression
  obtain ⟨argument, harg, hkind, hspan⟩ := exists_of_ofExpression? hlies.wellFormed hrequest
  exact ⟨stmt, hstmt, List.ne_nil_of_mem hexpression, argument, harg.mono hlies.inside,
    hkind, hspan⟩

end Request

end TypeGraft
