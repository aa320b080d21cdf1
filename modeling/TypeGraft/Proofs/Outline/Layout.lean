import TypeGraft.Proofs.Outline
import TypeGraft.Proofs.Syntax.Layout

/-!
# How declarations lie

What a scan of a well-formed tree takes from it stands in its place (`TypeGraft.Declaration.Laid`):
the types that an interface extends stand in front of its body, and all mentions stand one behind
the other, those of the body inside of it.
-/

namespace TypeGraft

open Syntax Syntax.Node

/-- The mentions in the part of a declaration that is copied. -/
def Declaration.bodyMentions (d : Declaration) (source : Bytes) : List Mention :=
  match d.shape with
  | .alias value =>
    if value.kind = .objectType then Mention.ofBlock source value
    else Mention.ofType source .member value
  | .interface _ block => Mention.ofBlock source block
  | .enumeration => []

theorem Declaration.mentions_eq (d : Declaration) (source : Bytes) :
    d.mentions source = d.bases.flatMap (Mention.ofBase source) ++ d.bodyMentions source := by
  unfold mentions bodyMentions bases
  cases d.shape <;> rfl

/-- **What a declaration names stands in its place.** -/
structure Declaration.Laid (source : Bytes) (d : Declaration) : Prop where
  statement : d.statement.Cuts source
  body : d.body.In d.statement
  copied : d.body.Cuts source
  /-- The text to copy is that of the body, or was made up. -/
  content : d.content = d.body.slice source ∨ d.isEnumeration = true
  invented : d.isEnumeration = true → Bytes.Encoded d.content
  /-- The types that are extended stand in front of the body. -/
  head : Span.Row d.statement (d.bases.map (·.span))
  ahead : ∀ base ∈ d.bases, base.span.Before d.body
  /-- What is extended is written as it stands there. -/
  worded : ∀ base ∈ d.bases, base.span.Cuts source ∧
    base.text = Bytes.toStringLossy (base.span.slice source)
  bases : ∀ base ∈ d.bases, Span.Row base.span ((Mention.ofBase source base).map (·.span))
  members : Span.Row d.body ((d.bodyMentions source).map (·.span))
  names : ∀ m ∈ d.mentions source, m.span.Cuts source ∧ m.span.start < m.span.stop
  legible : ∀ m ∈ d.bodyMentions source, Bytes.Encoded (m.span.slice source)

namespace Declaration.Laid

variable {source : Bytes} {d : Declaration}

/-- **All mentions** stand one behind the other. -/
theorem row_mentions (h : d.Laid source) :
    Span.Row d.statement ((d.mentions source).map (·.span)) := by
  have hheads : Span.Row d.statement
      ((d.bases.flatMap (Mention.ofBase source)).map (·.span)) := by
    rw [List.map_flatMap]
    exact h.head.flatMap h.bases
  rw [d.mentions_eq, List.map_append]
  refine hheads.append (h.members.mono h.body) fun a ha b hb => ?_
  rw [List.map_flatMap] at ha
  obtain ⟨base, hbase, ha⟩ := List.mem_flatMap.mp ha
  have hbody : d.body.In d.body := ⟨le_rfl, h.body.2.1, le_rfl⟩
  exact (h.ahead base hbase).mono ((h.bases base hbase).inside a ha) (h.members.inside b hb)

end Declaration.Laid

/-! ### Mentions of nodes -/

namespace Mention

variable {source : Bytes}

theorem map_span_ofType (kind : MentionKind) (type : Node) :
    (ofType source kind type).map (·.span) = type.typeNames.map (·.span) := by
  rw [ofType, List.map_map]
  rfl

theorem typeNames_of_kind : {type : Node} → type.kind = .typeIdentifier → type.typeNames = [type]
  | .mk kind field span children, h => by rw [Node.typeNames, if_pos (show kind = _ from h)]

theorem map_span_ofBlock (block : Node) : (ofBlock source block).map (·.span) =
    (block.propertyTypes.flatMap Node.typeNames).map (·.span) := by
  rw [ofBlock, List.map_flatMap, List.map_flatMap]
  refine congrArg (List.flatMap · _) (funext fun type => ?_)
  split
  · next hkind => rw [typeNames_of_kind hkind]; rfl
  · exact map_span_ofType .property type

theorem ofBase_eq (base : Heritage) : ofBase source base =
    ⟨base.name, base.slot, .extends_, false⟩ ::
      base.arguments.elim [] (ofType source .member) := by
  rw [ofBase]
  cases base.arguments with
  | none => rfl
  | some arguments => exact congrArg _ (List.append_nil _)

theorem mem_ofBase {base : Heritage} {m : Mention} : m ∈ ofBase source base ↔
    m = ⟨base.name, base.slot, .extends_, false⟩ ∨
      ∃ arguments, base.arguments = some arguments ∧ m ∈ ofType source .member arguments := by
  rw [ofBase_eq, List.mem_cons]
  cases base.arguments <;> simp

/-- A mention that stands for a name in `base`. -/
def Names (source : Bytes) (base : Span) (m : Mention) : Prop :=
  ∃ name : Node, name.LiesIn source base ∧ name.kind = .typeIdentifier ∧ m.span = name.span

theorem Names.cuts {base : Span} {m : Mention} (h : m.Names source base) :
    m.span.Cuts source ∧ m.span.start < m.span.stop ∧ Bytes.Encoded (m.span.slice source) := by
  obtain ⟨name, hlies, hkind, hspan⟩ := h
  rw [hspan]
  exact ⟨hlies.wellFormed.cuts, hlies.wellFormed.shaped.name (Or.inl hkind),
    hlies.wellFormed.shaped.legible hkind⟩

/-- The mentions in a type. -/
theorem row_ofType {type : Node} (h : type.WellFormed source) (kind : MentionKind) :
    Span.Row type.span ((ofType source kind type).map (·.span)) ∧
      ∀ m ∈ ofType source kind type, m.Names source type.span := by
  have hnames := h.nodesIn_typeNames
  refine ⟨by rw [map_span_ofType]; exact hnames.row, fun m hm => ?_⟩
  obtain ⟨name, hname, rfl⟩ := List.mem_map.mp hm
  exact ⟨name, hnames.liesIn hname, kind_of_mem_typeNames _ hname, rfl⟩

/-- The mentions in the properties of an object type. -/
theorem row_ofBlock {block : Node} (h : block.WellFormed source) :
    Span.Row block.span ((ofBlock source block).map (·.span)) ∧
      ∀ m ∈ ofBlock source block, m.Names source block.span := by
  have htypes := h.nodesIn_propertyTypes
  have hnames : NodesIn source block.span (block.propertyTypes.flatMap Node.typeNames) :=
    .flatMap htypes.row fun type htype => (htypes.wellFormed type htype).nodesIn_typeNames
  refine ⟨by rw [map_span_ofBlock]; exact hnames.row, fun m hm => ?_⟩
  obtain ⟨type, htype, hm⟩ := List.mem_flatMap.mp hm
  have hlies := htypes.liesIn htype
  split at hm
  · next hkind =>
    rw [List.mem_singleton.mp hm]
    exact ⟨type, hlies, hkind, rfl⟩
  · obtain ⟨name, hname, hkind, hspan⟩ := (row_ofType hlies.wellFormed .property).2 m hm
    exact ⟨name, hname.mono hlies.inside, hkind, hspan⟩

end Mention

/-- **The parts of a base** lie in it, its name in front of its type arguments. -/
structure Heritage.Orderly (source : Bytes) (base : Heritage) : Prop where
  slot : base.slot.In base.span
  arguments : ∀ arguments, base.arguments = some arguments →
    arguments.LiesIn source base.span ∧ base.slot.Before arguments.span

namespace Heritage.Orderly

variable {source : Bytes} {base : Heritage} (h : base.Orderly source)
include h

theorem row : Span.Row base.span ((Mention.ofBase source base).map (·.span)) := by
  rw [Mention.ofBase_eq]
  cases harguments : base.arguments with
  | none => exact .single h.slot
  | some arguments =>
    obtain ⟨hlies, hbefore⟩ := h.arguments arguments harguments
    have hrow := (Mention.row_ofType hlies.wellFormed .member).1
    refine (Span.Row.single h.slot).append (hrow.mono hlies.inside) fun a ha b hb => ?_
    rw [List.mem_singleton.mp ha]
    exact hbefore.mono ⟨le_rfl, h.slot.2.1, le_rfl⟩ (hrow.inside b hb)

theorem names (hslot : base.slot.Cuts source ∧ base.slot.start < base.slot.stop) :
    ∀ m ∈ Mention.ofBase source base, m.span.Cuts source ∧ m.span.start < m.span.stop := by
  intro m hm
  rcases Mention.mem_ofBase.mp hm with rfl | ⟨arguments, harguments, hm⟩
  · exact hslot
  · have hlies := (h.arguments arguments harguments).1
    have hcuts := ((Mention.row_ofType hlies.wellFormed .member).2 m hm).cuts
    exact ⟨hcuts.1, hcuts.2.1⟩

end Heritage.Orderly

/-- The name of a base stands in front of its arguments. -/
theorem Declaration.Laid.slot {source : Bytes} {d : Declaration} (h : d.Laid source)
    {base : Heritage} (hbase : base ∈ d.bases) :
    base.slot.In base.span ∧ base.slot.Cuts source := by
  let m : Mention := ⟨base.name, base.slot, .extends_, false⟩
  have hmem : m ∈ Mention.ofBase source base := Mention.mem_ofBase.mpr (Or.inl rfl)
  refine ⟨(h.bases base hbase).inside _ (List.mem_map_of_mem hmem), (h.names m ?_).1⟩
  rw [d.mentions_eq]
  exact List.mem_append_left _ (List.mem_flatMap.mpr ⟨base, hbase, hmem⟩)

namespace Outline

variable {source : Bytes} {path : String} {strict : Bool}

/-! ### Declarations -/

/-- One type that is extended, at a node. -/
structure Extends (source : Bytes) (type : Node) (base : Heritage) : Prop where
  span : base.span = type.span
  text : base.text = type.text source
  row : Span.Row type.span ((Mention.ofBase source base).map (·.span))
  names : ∀ m ∈ Mention.ofBase source base, m.span.Cuts source ∧ m.span.start < m.span.stop

/-- **A base that is read off a node** is orderly, and its name is not empty. -/
theorem orderly_of_readsBase {type : Node} {base : Heritage} (h : type.WellFormed source)
    (hreads : ReadsBase source type base) :
    base.Orderly source ∧ base.slot.Cuts source ∧ base.slot.start < base.slot.stop := by
  cases hreads with
  | whole hkind =>
    exact ⟨⟨h.self.inside, fun _ harguments => absurd harguments (by simp)⟩, h.cuts,
      h.shaped.name hkind⟩
  | applied name hkind hname =>
    -- the tree has a name here, so the node itself is not taken for one
    obtain ⟨first, hfirst, hrange, hbefore⟩ := h.shaped.applied hkind
    obtain rfl : name = first := by rw [hname, hfirst, Option.getD_some]
    have hlies := h.child? hfirst
    refine ⟨⟨hlies.inside, fun arguments harguments => ?_⟩, hlies.wellFormed.cuts, hrange⟩
    have hmem : arguments ∈ type.children :=
      List.mem_of_mem_filter (List.mem_of_find?_eq_some harguments)
    have hkind : arguments.kind = .typeArguments := by simpa using List.find?_some harguments
    exact ⟨h.child hmem, hbefore arguments hmem hkind⟩

theorem extends_of_readsBase {type : Node} {base : Heritage} (h : type.WellFormed source)
    (hreads : ReadsBase source type base) : Extends source type base := by
  obtain ⟨horderly, hcuts, hrange⟩ := orderly_of_readsBase h hreads
  have hspan : base.span = type.span ∧ base.text = type.text source := by
    cases hreads <;> exact ⟨rfl, rfl⟩
  exact ⟨hspan.1, hspan.2, hspan.1 ▸ horderly.row, horderly.names ⟨hcuts, hrange⟩⟩

/-- The types that an interface extends. -/
theorem exists_extends_of_mem_bases {node : Node} (h : node.WellFormed source) {base : Heritage}
    (hbase : base ∈ bases source node) : ∃ clause ∈ node.children, clause.kind = .extendsClause ∧
      ∃ type : Node, type.LiesIn source clause.span ∧ Extends source type base := by
  obtain ⟨clause, hclause, hkind, type, htype, hreads⟩ := exists_readsBase_of_mem_bases hbase
  have hlies := (h.child hclause).wellFormed.namedChild htype
  exact ⟨clause, hclause, hkind, type, hlies, extends_of_readsBase hlies.wellFormed hreads⟩

theorem row_bases {node : Node} (h : node.WellFormed source) :
    Span.Row node.span ((bases source node).map (·.span)) := by
  rw [bases, List.map_flatMap]
  refine (h.nodesIn.sublist List.filter_sublist).row.flatMap fun clause hclause => ?_
  have hwell := (h.child (List.mem_of_mem_filter hclause)).wellFormed
  refine (hwell.nodesIn.sublist List.filter_sublist).row.filterMap fun type htype base hbase => ?_
  have hlies := hwell.namedChild htype
  rw [(extends_of_readsBase hlies.wellFormed (readsBase_of_heritage? hbase)).span]
  exact hlies.wellFormed.self.inside

/-- What is copied of a declaration, with the mentions in it. -/
structure Copies (source : Bytes) (node : Node) (d : Declaration) : Prop where
  body : d.body.In node.span
  copied : d.body.Cuts source
  content : d.content = d.body.slice source ∨ d.isEnumeration = true
  invented : d.isEnumeration = true → Bytes.Encoded d.content
  members : Span.Row d.body ((d.bodyMentions source).map (·.span))
  names : ∀ m ∈ d.bodyMentions source, m.Names source d.body

/-- The bytes of a part of a node are copied, with the mentions in that part. -/
theorem Copies.of_part {node part : Node} {d : Declaration} (hpart : part.LiesIn source node.span)
    (hbody : d.body = part.span) (hcontent : d.content = part.bytes source)
    (hmade : d.isEnumeration = false)
    (hmembers : Span.Row part.span ((d.bodyMentions source).map (·.span)) ∧
      ∀ m ∈ d.bodyMentions source, m.Names source part.span) : Copies source node d where
  body := hbody ▸ hpart.inside
  copied := hbody ▸ hpart.wellFormed.cuts
  content := Or.inl (by rw [hcontent, hbody]; rfl)
  invented h := absurd (hmade.symm.trans h) Bool.false_ne_true
  members := hbody ▸ hmembers.1
  names := hbody ▸ hmembers.2

/-- What a declaration extends is what the clauses of its node name. -/
theorem mem_bases_of_mem {node : Node} {d : Declaration}
    (hbases : d.bases = [] ∨ d.bases = Outline.bases source node) {base : Heritage}
    (h : base ∈ d.bases) : base ∈ Outline.bases source node := by
  rcases hbases with hnone | hbases
  · rw [hnone] at h
    exact absurd h List.not_mem_nil
  · exact hbases ▸ h

/-- A declaration of which all that it extends stands in front of what is copied. -/
theorem Copies.laid {statement node : Node} {d : Declaration} (h : Copies source node d)
    (hstatement : statement.WellFormed source) (hnode : node.LiesIn source statement.span)
    (hspan : d.statement = statement.span)
    (hbases : d.bases = [] ∨ d.bases = Outline.bases source node)
    (hahead : ∀ base ∈ d.bases, base.span.Before d.body) : d.Laid source where
  statement := hspan ▸ hstatement.cuts
  body := hspan ▸ h.body.trans hnode.inside
  copied := h.copied
  content := h.content
  invented := h.invented
  head := by
    rw [hspan]
    rcases hbases with hnone | hbases
    · rw [hnone]; exact .nil _
    · rw [hbases]; exact (row_bases hnode.wellFormed).mono hnode.inside
  ahead := hahead
  worded := by
    intro base hbase
    obtain ⟨clause, -, -, type, hlies, hextends⟩ :=
      exists_extends_of_mem_bases hnode.wellFormed (mem_bases_of_mem hbases hbase)
    rw [hextends.span]
    exact ⟨hlies.wellFormed.cuts, hextends.text⟩
  bases := by
    intro base hbase
    obtain ⟨-, -, -, type, -, hextends⟩ :=
      exists_extends_of_mem_bases hnode.wellFormed (mem_bases_of_mem hbases hbase)
    rw [hextends.span]
    exact hextends.row
  members := h.members
  names := by
    intro m hm
    rw [d.mentions_eq] at hm
    rcases List.mem_append.mp hm with hm | hm
    · obtain ⟨base, hbase, hm⟩ := List.mem_flatMap.mp hm
      obtain ⟨-, -, -, type, -, hextends⟩ :=
        exists_extends_of_mem_bases hnode.wellFormed (mem_bases_of_mem hbases hbase)
      exact hextends.names m hm
    · have hcuts := (h.names m hm).cuts
      exact ⟨hcuts.1, hcuts.2.1⟩
  legible m hm := (h.names m hm).cuts.2.2

/-- **A declaration in a well-formed tree** stands in its place. -/
theorem laid_of_declaration? {statement node : Node} {d : Declaration}
    (hstatement : statement.WellFormed source) (hnode : node.LiesIn source statement.span)
    (h : declaration? path source statement node = some d) :
    d.Laid source ∧ d.statement = statement.span := by
  have hwell := hnode.wellFormed
  have hat := declaredAt_of_declaration? h
  have hlaid : Copies source node d → (∀ base ∈ d.bases, base.span.Before d.body) → d.Laid source :=
    fun hcopies => hcopies.laid hstatement hnode hat.statement hat.declaredAs.bases
  refine ⟨?_, hat.statement⟩
  cases hat.declaredAs with
  | ofAlias value _ hvalue hshape hbody hcontent =>
    have hlies := hwell.child? hvalue
    refine hlaid (.of_part hlies hbody hcontent (by rw [Declaration.isEnumeration, hshape]) ?_)
      fun base hbase => ?_
    · rw [Declaration.bodyMentions, hshape]
      dsimp only
      split
      · exact Mention.row_ofBlock hlies.wellFormed
      · exact Mention.row_ofType hlies.wellFormed .member
    · rw [Declaration.bases, hshape] at hbase
      exact absurd hbase List.not_mem_nil
  | ofInterface block hkind hblock hshape hbody hcontent =>
    have hlies := hwell.child? hblock
    refine hlaid (.of_part hlies hbody hcontent (by rw [Declaration.isEnumeration, hshape]) ?_)
      fun base hbase => ?_
    · rw [Declaration.bodyMentions, hshape]
      exact Mention.row_ofBlock hlies.wellFormed
    · obtain ⟨clause, hclause, hkind', type, htype, hextends⟩ :=
        exists_extends_of_mem_bases hwell (hat.declaredAs.mem_bases hbase)
      rw [hextends.span, hbody]
      exact (hwell.shaped.extended hkind block hblock clause hclause hkind').mono htype.inside
        hlies.wellFormed.self.inside
  | ofEnumeration kinds _ hshape hbody hcontent =>
    have hnone : d.bodyMentions source = [] := by rw [Declaration.bodyMentions, hshape]
    refine hlaid ⟨hbody ▸ hwell.self.inside, hbody ▸ hwell.cuts, Or.inr ?_, fun _ => ?_, ?_,
      fun m hm => absurd (hnone ▸ hm) List.not_mem_nil⟩ fun base hbase => ?_
    · rw [Declaration.isEnumeration, hshape]
    · rw [hcontent]
      exact Bytes.encoded_ofString _
    · rw [hnone]
      exact .nil _
    · rw [Declaration.bases, hshape] at hbase
      exact absurd hbase List.not_mem_nil

/-! ### Statements -/

variable {o o' : Outline} {events : List Event} {name : Option String}

/-- **What a visit inside of a statement adds**: nothing, or one declaration. -/
inductive Adds (statement : Node) (o o' : Outline) : Option String → Prop where
  | nothing (declarations : o'.declarations = o.declarations)
      (importList : o'.importList = o.importList) : Adds statement o o' none
  | declaration (d : Declaration) (laid : d.Laid o.source) (span : d.statement = statement.span)
      (declarations : o'.declarations = o.declarations.put d.name d)
      (importList : o'.importList = o.importList) : Adds statement o o' (some d.name)

/-- **What a statement adds**: nothing, or one import, or one declaration. A statement that adds
something makes no requests. -/
inductive Gives (stmt : Node) (o o' : Outline) : Prop where
  | nothing (declarations : o'.declarations = o.declarations)
      (importList : o'.importList = o.importList)
  | import_ (i : Import) (span : i.span = stmt.span) (silent : Request.expressions stmt = [])
      (declarations : o'.declarations = o.declarations)
      (importList : o'.importList = o.importList ++ [i])
  | declaration (d : Declaration) (laid : d.Laid o.source) (span : d.statement = stmt.span)
      (silent : Request.expressions stmt = [])
      (declarations : o'.declarations = o.declarations.put d.name d)
      (importList : o'.importList = o.importList)

theorem Adds.of_same {statement : Node} {o₁ : Outline} (h : Adds statement o₁ o' name)
    (hsource : o₁.source = o.source) (hdeclarations : o₁.declarations = o.declarations)
    (himports : o₁.importList = o.importList) : Adds statement o o' name := by
  cases h with
  | nothing hd hi => exact .nothing (hd.trans hdeclarations) (hi.trans himports)
  | declaration d hlaid hspan hd hi =>
    exact .declaration d (hsource ▸ hlaid) hspan (hdeclarations ▸ hd) (hi.trans himports)

theorem declarations_of_declare {d : Declaration} (h : declare strict d o = .ok (o', events)) :
    o'.declarations = o.declarations.put d.name d ∧ o'.importList = o.importList := by
  unfold declare at h
  split at h
  · obtain ⟨rfl, -⟩ := Prod.mk.inj (Except.ok.inj h)
    exact ⟨rfl, rfl⟩
  · split at h
    · exact absurd h (by simp)
    · obtain ⟨rfl, -⟩ := Prod.mk.inj (Except.ok.inj h)
      exact ⟨rfl, rfl⟩

theorem expressions_of_declaration? {statement : Node} {d : Declaration} : {node : Node} →
    declaration? path source statement node = some d → Request.expressions node = []
  | .mk kind field span children, h => by
    cases (declaredAt_of_declaration? h).declaredAs with
    | ofAlias _ hkind => rw [show kind = .typeAlias from hkind, Request.expressions] <;> simp
    | ofInterface _ hkind => rw [show kind = .interface from hkind, Request.expressions] <;> simp
    | ofEnumeration _ hkind =>
      rw [show kind = .enumeration from hkind, Request.expressions] <;> simp

/-- Neither an import nor an export. -/
def IsPlain (node : Node) : Prop :=
  node.kind ≠ .importStatement ∧ node.kind ≠ .exportStatement

mutual

theorem adds_visit {strict : Bool} {statement : Node} {o o' : Outline} {events : List Event}
    {name : Option String} (hstatement : statement.WellFormed o.source) :
    (node : Node) → node.LiesIn o.source statement.span → IsPlain node →
    visit strict statement o node = .ok (o', events, name) →
    Adds statement o o' name ∧ (name.isSome → Request.expressions node = [])
  | .mk kind field span children, hnode, hplain, h => by
    cases visited_of_visit h with
    | imports hkind => exact absurd hkind hplain.1
    | exports hkind => exact absurd hkind hplain.2
    | ambient hkind hparts =>
      have hshaped := hnode.wellFormed.shaped.plain (Or.inl hkind)
      refine ⟨adds_visitAmbient hstatement children (fun c hc =>
        (hnode.wellFormed.child hc).mono hnode.inside) (fun c hc => hshaped c hc) hparts,
        fun _ => ?_⟩
      rw [show kind = .ambient from hkind, Request.expressions]
      all_goals simp
    | nothing => exact ⟨.nothing rfl rfl, by simp⟩
    | declares d hd hdeclare =>
      obtain ⟨hlaid, hspan⟩ := laid_of_declaration? hstatement hnode hd
      obtain ⟨hdeclarations, himports⟩ := declarations_of_declare hdeclare
      exact ⟨.declaration d hlaid hspan hdeclarations himports,
        fun _ => expressions_of_declaration? hd⟩

theorem adds_visitAmbient {strict : Bool} {statement : Node} {o o' : Outline}
    {events : List Event} {name : Option String} (hstatement : statement.WellFormed o.source) :
    (children : List Node) → (∀ child ∈ children, child.LiesIn o.source statement.span) →
    (∀ child ∈ children, IsPlain child) →
    visitAmbient strict statement o children = .ok (o', events, name) → Adds statement o o' name
  | [], _, _, h => by
    cases ambientVisited_of_visitAmbient h with
    | nothing => exact .nothing rfl rfl
  | child :: rest, hlies, hplain, h => by
    have hrestLies := fun c hc => hlies c (List.mem_cons_of_mem _ hc)
    have hrestPlain := fun c hc => hplain c (List.mem_cons_of_mem _ hc)
    cases ambientVisited_of_visitAmbient h with
    | declares hvisit =>
      exact (adds_visit hstatement child (hlies child List.mem_cons_self)
        (hplain child List.mem_cons_self) hvisit).1
    | both hvisit hparts =>
      have hadds := (adds_visit hstatement child (hlies child List.mem_cons_self)
        (hplain child List.mem_cons_self) hvisit).1
      have hgrows := grows_visit child hvisit
      cases hadds with
      | nothing hdeclarations himports =>
        rw [← hgrows.source] at hstatement hrestLies
        exact (adds_visitAmbient hstatement rest hrestLies hrestPlain hparts).of_same hgrows.source
          hdeclarations himports
    | later hparts => exact adds_visitAmbient hstatement rest hrestLies hrestPlain hparts

end

/-- What an export without a declaration says adds nothing. -/
theorem same_addExports (node : Node) (o : Outline) :
    (addExports node o).declarations = o.declarations ∧
      (addExports node o).importList = o.importList := by
  have hfold : ∀ (specifier : Option String) (entries : List Node) (o : Outline),
      (entries.foldl (addExport specifier) o).declarations = o.declarations ∧
        (entries.foldl (addExport specifier) o).importList = o.importList := by
    intro specifier entries
    induction entries with
    | nil => exact fun o => ⟨rfl, rfl⟩
    | cons entry entries ih =>
      intro o
      obtain ⟨hd, hi⟩ := ih (addExport specifier o entry)
      rw [List.foldl_cons, hd, hi]
      cases specifier <;> exact ⟨rfl, rfl⟩
  unfold addExports
  split
  · exact hfold _ _ o
  · dsimp only
    split
    · split
      · exact ⟨rfl, rfl⟩
      · exact ⟨rfl, rfl⟩
    · exact ⟨rfl, rfl⟩

theorem gives_visitExport {node : Node} (hnode : node.WellFormed o.source)
    (hkind : node.kind = .exportStatement) (children : List Node)
    (hchildren : ∀ child ∈ children, child ∈ node.children)
    (h : visitExport strict node o children = .ok (o', events, name)) :
    (o'.declarations = o.declarations ∧ o'.importList = o.importList) ∨
      ∃ child, children.find? (·.field == some .declaration) = some child ∧
        Request.expressions child = [] ∧ ∃ d : Declaration, d.Laid o.source ∧
          d.statement = node.span ∧ o'.declarations = o.declarations.put d.name d ∧
          o'.importList = o.importList := by
  induction children generalizing name with
  | nil =>
    cases exportVisited_of_visitExport h with
    | nothing => exact Or.inl ⟨rfl, rfl⟩
    | default => exact Or.inl ⟨rfl, rfl⟩
    | exports => exact Or.inl (same_addExports node o)
  | cons child rest ih =>
    have hmem := hchildren child List.mem_cons_self
    have hvisited : ∀ {o₁ found}, visit strict node o child = .ok (o₁, events, found) →
        Adds node o o₁ found ∧ (found.isSome → Request.expressions child = []) :=
      adds_visit hnode child (hnode.child hmem) (hnode.shaped.plain (Or.inr hkind) child hmem)
    cases exportVisited_of_visitExport h with
    | declares hrole hvisit =>
      obtain ⟨hadds, hsilent⟩ := hvisited hvisit
      cases hadds with
      | nothing hd hi => exact Or.inl ⟨hd, hi⟩
      | declaration d hlaid hspan hd hi =>
        exact Or.inr ⟨child, List.find?_cons_of_pos (beq_iff_eq.mpr hrole), hsilent rfl, d,
          hlaid, hspan, hd, hi⟩
    | declaresDefault hrole hvisit =>
      obtain ⟨hadds, hsilent⟩ := hvisited hvisit
      cases hadds with
      | declaration d hlaid hspan hd hi =>
        exact Or.inr ⟨child, List.find?_cons_of_pos (beq_iff_eq.mpr hrole), hsilent rfl, d,
          hlaid, hspan, hd, hi⟩
    | later hrole hparts =>
      rw [List.find?_cons_of_neg (by simpa using hrole)]
      exact ih (fun c hc => hchildren c (List.mem_cons_of_mem _ hc)) hparts

theorem import_of_addImport (node : Node) (o : Outline) :
    (addImport node o).declarations = o.declarations ∧
      ((addImport node o).importList = o.importList ∨ ∃ i : Import, i.span = node.span ∧
        (addImport node o).importList = o.importList ++ [i]) := by
  have hspan : ∀ (specifier : String) (parts : List Node) (i : Import),
      (parts.foldl (addPart o.source specifier) i).span = i.span := by
    intro specifier parts
    induction parts with
    | nil => exact fun i => rfl
    | cons part parts ih =>
      intro i
      rw [List.foldl_cons, ih]
      unfold addPart
      split <;> rfl
  unfold addImport
  split
  · exact ⟨rfl, Or.inl rfl⟩
  · exact ⟨rfl, Or.inr ⟨_, hspan _ _ _, rfl⟩⟩

/-- **A statement of a well-formed tree** adds one thing at most. -/
theorem gives_visit : {stmt : Node} → stmt.WellFormed o.source →
    visit strict stmt o stmt = .ok (o', events, name) → Gives stmt o o'
  | .mk kind field span children, hstmt, h => by
    cases visited_of_visit h with
    | imports hkind =>
      obtain rfl : kind = .importStatement := hkind
      obtain ⟨hd, hi | ⟨i, hspan, hi⟩⟩ :=
        import_of_addImport (.mk .importStatement field span children) o
      · exact .nothing hd hi
      · exact .import_ i hspan (by rw [Request.expressions]; all_goals simp) hd hi
    | exports hkind hparts =>
      obtain rfl : kind = .exportStatement := hkind
      rcases gives_visitExport hstmt rfl children (fun _ h => h) hparts with ⟨hd, hi⟩ |
        ⟨child, hfind, hsilent, d, hlaid, hspan, hd, hi⟩
      · exact .nothing hd hi
      · refine .declaration d hlaid hspan ?_ hd hi
        have hnone : children.find? (·.field == some .value) = none :=
          Request.find?_value_of_declaration hstmt rfl hfind
        rw [Request.expressions, Request.declared_eq, hfind, Option.elim_some, hsilent, hnone]
        rfl
    | ambient hkind =>
      have hplain : IsPlain (.mk kind field span children) := ⟨by simp [hkind], by simp [hkind]⟩
      obtain ⟨hadds, hsilent⟩ := adds_visit hstmt _ hstmt.self hplain h
      cases hadds with
      | nothing hd hi => exact .nothing hd hi
      | declaration d hlaid hspan hd hi => exact .declaration d hlaid hspan (hsilent rfl) hd hi
    | nothing => exact .nothing rfl rfl
    | declares d hd hdeclare =>
      obtain ⟨hlaid, hspan⟩ := laid_of_declaration? hstmt hstmt.self hd
      obtain ⟨hdeclarations, himports⟩ := declarations_of_declare hdeclare
      exact .declaration d hlaid hspan (expressions_of_declaration? hd) hdeclarations himports

end Outline

end TypeGraft
