import TypeGraft.Proofs.Syntax.Marks

/-!
# Grammars of well-formed trees

A grammar that is `TypeGraft.Syntax.Grammar.proper` reads well-formed nodes only
(`TypeGraft.Syntax.Grammar.Reads.wellFormed`): what it reads as an interface has the types that it
extends in front of its block, and so on for everything that has a place in its node
(`TypeGraft.Syntax.Node.Shaped`).

A name that is applied to types is read in two steps, first the types and then the name in front of
them, which is put into the node of the types. In between that node has no name, so it is the one
exception (`TypeGraft.Syntax.Grammar.whole`).
-/

namespace TypeGraft.Syntax

variable {ρ : Type} {rules : ρ → Grammar ρ} {source : Bytes} {c d : Cursor} {nodes : List Node}
  {g : Grammar ρ} {table : Mark → ρ → Bool}

/-! ### Names -/

namespace Lexeme

theorem isSome_scalar_of_char {glyph : Glyph} (h : glyph.char ≠ '\uFFFD') :
    glyph.scalar.isSome := by
  cases hscalar : glyph.scalar with
  | none => exact absurd (by rw [Glyph.char, hscalar]; rfl) h
  | some char => rfl

/-- A name consists of characters. -/
theorem isSome_scalar_of_nameLength (rest : List Glyph) :
    ∀ glyph ∈ rest.take (nameLength rest), glyph.scalar.isSome := by
  fun_induction nameLength rest with
  | case1 => exact fun glyph h => absurd h (by simp)
  | case2 first rest hname ih =>
    rw [List.take_succ_cons]
    refine List.forall_mem_cons.mpr ⟨isSome_scalar_of_char fun hchar => ?_, ih⟩
    rw [hchar] at hname
    exact absurd hname (by decide)
  | case3 first hname hslash second rest hu ih =>
    rw [List.take_succ_cons, List.take_succ_cons]
    refine List.forall_mem_cons.mpr ⟨isSome_scalar_of_char ?_, List.forall_mem_cons.mpr
      ⟨isSome_scalar_of_char ?_, ih⟩⟩
    · rw [hslash]
      decide
    · rw [hu]
      decide
  | _ => exact fun glyph h => absurd h (by simp)

theorem nameLength_of_identifier {rest : List Glyph} {count : Nat}
    (h : Lexeme.identifier.length? rest = some count) :
    rest ≠ [] ∧ count ≠ 0 ∧ nameLength rest = count := by
  obtain ⟨n, hname, h⟩ := Option.bind_eq_some_iff.mp h
  split at h
  · exact absurd h (by simp)
  · obtain rfl := Option.some.inj h
    unfold name? at hname
    split at hname
    · split at hname
      · exact absurd hname (by simp)
      · split at hname
        · exact absurd hname (by simp)
        · next hne => 
          obtain rfl := Option.some.inj hname
          exact ⟨List.cons_ne_nil _ _, hne, rfl⟩
    · exact absurd hname (by simp)

end Lexeme

/-! ### Shapes -/

/-- The kinds of nodes in which something has its place. -/
def Kind.shaped : List Kind :=
  [.typeIdentifier, .qualifiedType, .genericType, .interface, .ambient, .exportStatement]

namespace Node

variable {n : Node} {kind : Kind} {field : Option Field} {span : Span} {children : List Node}

theorem Shaped.of_not_mem (h : n.kind ∉ Kind.shaped) : n.Shaped source := by
  have hne : ∀ k ∈ Kind.shaped, n.kind ≠ k := fun k hk heq => h (heq ▸ hk)
  have hname := hne .typeIdentifier (by decide)
  have hqualified := hne .qualifiedType (by decide)
  have hgeneric := hne .genericType (by decide)
  have hinterface := hne .interface (by decide)
  have hambient := hne .ambient (by decide)
  have hexport := hne .exportStatement (by decide)
  exact ⟨fun h => absurd h (not_or.mpr ⟨hname, hqualified⟩), fun h => absurd h hname,
    fun h => absurd h hgeneric, fun h => absurd h hinterface,
    fun h => absurd h (not_or.mpr ⟨hambient, hexport⟩), fun h => absurd h hexport⟩

theorem Shaped.withField (h : n.Shaped source) (field : Option Field) :
    (n.withField field).Shaped source := ⟨h.1, h.2, h.3, h.4, h.5, h.6⟩

theorem Shaped.name_of_leaf (hkind : kind = .typeIdentifier ∨ kind = .qualifiedType)
    (hspan : span.start < span.stop) (hlegible : kind = .typeIdentifier →
      Bytes.Encoded (span.slice source)) : (Node.mk kind field span children).Shaped source := by
  refine ⟨fun _ => hspan, hlegible, ?_, ?_, ?_, ?_⟩ <;>
    rcases hkind with rfl | rfl <;> simp [Node.kind]

theorem WellFormed.of_shaped (hframed : n.Framed source) (hshaped : n.Shaped source)
    (hchildren : ∀ child ∈ n.children, child.WellFormed source) : n.WellFormed source :=
  .intro hframed.cuts hframed.row hshaped hchildren

theorem WellFormed.withField (h : n.WellFormed source) (field : Option Field) :
    (n.withField field).WellFormed source :=
  .intro h.cuts h.row (h.shaped.withField field) fun _ hchild => (h.child hchild).wellFormed

/-- What names a type, be it applied or not, is not empty. -/
theorem WellFormed.nonempty (h : n.WellFormed source)
    (hkind : n.kind = .typeIdentifier ∨ n.kind = .qualifiedType ∨ n.kind = .genericType) :
    n.span.start < n.span.stop := by
  rcases hkind with hkind | hkind | hkind
  · exact h.shaped.name (Or.inl hkind)
  · exact h.shaped.name (Or.inr hkind)
  · obtain ⟨name, hname, hlt, -⟩ := h.shaped.applied hkind
    have hin := (h.child? hname).inside
    exact (hin.1.trans_lt hlt).trans_le hin.2.2

/-- What is applied to types. -/
theorem Shaped.of_applied {name : Node} (hkind : kind = .genericType)
    (hrow : Span.Row span ((name.withField (some .name) :: children).map (·.span)))
    (hname : name.span.start < name.span.stop) (hno : name.kind ≠ .typeArguments) :
    (Node.mk kind field span (name.withField (some .name) :: children)).Shaped source := by
  subst hkind
  have hbefore := (List.pairwise_cons.mp hrow.inOrder).1
  refine ⟨by simp [Node.kind], by simp [Node.kind],
    fun _ => ⟨name.withField (some .name), rfl, hname, fun child hchild hkind => ?_⟩,
    by simp [Node.kind], by simp [Node.kind], by simp [Node.kind]⟩
  rcases List.mem_cons.mp hchild with rfl | hchild
  · exact absurd hkind hno
  · exact hbefore _ (List.mem_map_of_mem hchild)

end Node

namespace Grammar

namespace InTurn

variable {x y : Mark}

theorem sublist {more : List Node} (h : InTurn x y nodes) (hmore : more.Sublist nodes) :
    InTurn x y more :=
  ⟨h.pairwise.sublist hmore, fun n hn => h.alone n (hmore.subset hn)⟩

/-- Nodes of the second sort stand in front of those of the first one. -/
theorem before {base : Span} (h : InTurn x y nodes) (hrow : Span.Row base (nodes.map (·.span)))
    {a b : Node} (ha : a ∈ nodes) (hb : b ∈ nodes) (hy : y.On a) (hx : x.On b) :
    a.span.Before b.span := by
  have hall := List.Pairwise.forall_of_forall_of_flip
    (R := fun a b : Node => y.On a → x.On b → a.span.Before b.span)
    (fun n hn hy hx => absurd ⟨hx, hy⟩ (h.alone n hn))
    ((List.pairwise_map.mp hrow.inOrder).imp fun hbefore _ _ => hbefore)
    (h.pairwise.imp fun hno hy hx => absurd ⟨hx, hy⟩ hno)
  exact hall ha hb hy hx

/-- Nodes of two sorts that come in either order only do not come together. -/
theorem never (h : InTurn x y nodes) (h' : InTurn y x nodes) {a b : Node} (ha : a ∈ nodes)
    (hb : b ∈ nodes) (hx : x.On a) : ¬y.On b := by
  have hall := List.Pairwise.forall_of_forall_of_flip
    (R := fun a b : Node => ¬(x.On a ∧ y.On b)) h.alone h.pairwise
    (h'.pairwise.imp fun hno hboth => hno ⟨hboth.2, hboth.1⟩)
  exact fun hy => hall ha hb ⟨hx, hy⟩

end InTurn

/-! ### Proper grammars -/

/-- Whether every name that is applied to types stands in front of them already. -/
def whole : Grammar ρ → Bool
  | node kind _ => kind != .genericType
  | seq first second | alt first second => whole first && whole second
  | many item | labelled _ item => whole item
  | leaf _ _ | raw _ _ | chain _ _ | rule _ | empty | ahead _ | absent _ | sameLine | terminator =>
    true

/-- Whether what is read last is the name of a type, be it applied or not. -/
def namesType : Grammar ρ → Bool
  | leaf kind _ => kind == .typeIdentifier
  | node kind _ => kind == .qualifiedType
  | alt first second => namesType first && namesType second
  | chain operand (node kind _) => kind == .genericType && namesType operand
  | _ => false

/-- Whether a name is what is read first. -/
def named : Grammar ρ → Bool
  | seq (leaf kind .identifier) _ => kind != .comment
  | _ => false

/-- Whether the parts of a node of a kind stand in their places. -/
def shapes (table : Mark → ρ → Bool) (parts : Grammar ρ) : Kind → Bool
  | .typeIdentifier => false
  | .qualifiedType => parts.named
  | .interface => parts.apart table (.role .body) (.kind .extendsClause)
  | .ambient =>
    !parts.may table (.kind .importStatement) && !parts.may table (.kind .exportStatement)
  | .exportStatement =>
    !parts.may table (.kind .importStatement) && !parts.may table (.kind .exportStatement) &&
      parts.apart table (.role .declaration) (.role .value) &&
      parts.apart table (.role .value) (.role .declaration)
  | _ => true

/-- Whether a step may be built upon an operand: types that it is applied to upon a name, and
nothing else in which something has its place. -/
def joins (table : Mark → ρ → Bool) (operand : Grammar ρ) : Grammar ρ → Bool
  | node .genericType _ => namesType operand
  | step => Kind.shaped.all fun kind => !may table (.kind kind) step

/-- Whether everything stands in its place in the nodes that are read. -/
def proper (table : Mark → ρ → Bool) : Grammar ρ → Bool
  | leaf .typeIdentifier .identifier => true
  | leaf kind _ | raw kind _ => !Kind.shaped.contains kind
  | seq first second | alt first second => proper table first && proper table second
  | many item | labelled _ item => proper table item
  | node kind parts => proper table parts && whole parts && shapes table parts kind
  | chain operand step =>
    proper table operand && whole operand && proper table step && joins table operand step
  | rule _ | empty | ahead _ | absent _ | sameLine | terminator => true

/-- What is known of the rules of a grammar. -/
structure Sound (rules : ρ → Grammar ρ) (table : Mark → ρ → Bool) : Prop where
  may : ∀ mark name, (rules name).may table mark = true → table mark name = true
  proper : ∀ name, (rules name).proper table = true
  whole : ∀ name, (rules name).whole = true

theorem kind_ne_comment {n : Node} (h : n.isComment = false) :
    Mark.kind n.kind ≠ .kind .comment := by
  intro heq
  rw [Node.isComment, Mark.kind.inj heq] at h
  exact absurd h (by decide)

/-- A node and comments are all that is read as a node. -/
theorem Reads.kind_of_node {kind : Kind} {parts : Grammar ρ}
    (h : Reads rules (.node kind parts) c nodes d) (hc : c.At source) {n : Node} (hn : n ∈ nodes)
    (hcomment : n.isComment = false) : n.kind = kind := by
  have hmay : (Grammar.node kind parts).may (fun _ _ => true) (.kind n.kind) = true :=
    h.may_of_mem hc (fun _ _ => rfl) (kind_ne_comment hcomment) hn rfl
  exact Mark.kind.inj (beq_iff_eq.mp hmay)

/-- The name of a type, applied or not, is what is read last. -/
theorem Reads.kind_of_namesType (h : Reads rules g c nodes d) (hc : c.At source)
    (hnames : g.namesType = true) {n : Node} (hn : nodes.getLast? = some n) :
    n.kind = .typeIdentifier ∨ n.kind = .qualifiedType ∨ n.kind = .genericType := by
  induction h generalizing n with
  | idle => exact absurd hn (by simp)
  | leaf =>
    rw [List.getLast?_concat] at hn
    rw [← Option.some.inj hn]
    exact Or.inl (beq_iff_eq.mp hnames)
  | raw => exact absurd hnames Bool.false_ne_true
  | endOfLine => exact absurd hnames Bool.false_ne_true
  | unfold hunfolds _ ih =>
    cases hunfolds with
    | first first second => exact ih hc ((Bool.and_eq_true _ _).mp hnames).1 hn
    | second first second => exact ih hc ((Bool.and_eq_true _ _).mp hnames).2 hn
    | operand operand step =>
      cases step with
      | node kind parts => exact ih hc ((Bool.and_eq_true _ _).mp hnames).2 hn
      | _ => exact absurd hnames Bool.false_ne_true
    | _ => exact absurd hnames Bool.false_ne_true
  | seq => exact absurd hnames Bool.false_ne_true
  | @node kind _ _ d nodes _ _ =>
    obtain ⟨before, rest, -, -, -, hgather⟩ := Node.exists_gather kind nodes d.offset
    rw [hgather, List.getLast?_concat] at hn
    rw [← Option.some.inj hn]
    exact Or.inr (Or.inl (beq_iff_eq.mp hnames))
  | labelled => exact absurd hnames Bool.false_ne_true
  | @chain operand step _ _ _ before more first hbefore hstep ih _ =>
    rw [List.getLast?_concat] at hn
    rw [← Option.some.inj hn]
    rcases Node.extend_eq first more with heq | ⟨before', m, rest, rfl, -, hm, heq⟩
    · rw [heq]
      exact ih hc hnames List.getLast?_concat
    · rw [heq]
      cases step with
      | node kind parts =>
        have hmem : m ∈ before' ++ m :: rest := List.mem_append_right _ List.mem_cons_self
        have hkind := hstep.kind_of_node (hbefore.spread hc).at_ hmem hm
        exact Or.inr (Or.inr (hkind.trans (beq_iff_eq.mp ((Bool.and_eq_true _ _).mp hnames).1)))
      | _ => exact absurd hnames Bool.false_ne_true

/-- **A node that is read**: its children are well-formed, and so is the node itself, unless it is
to be put behind the name that is applied. -/
structure Made (source : Bytes) (whole : Bool) (n : Node) : Prop where
  children : ∀ child ∈ n.children, child.WellFormed source
  shaped : (n.kind = .genericType → whole = true) → n.Shaped source

namespace Made

variable {n : Node} {kind : Kind} {parts operand step : Grammar ρ}

theorem mono {some all : Bool} (h : Made source some n) (hmono : all = true → some = true) :
    Made source all n := ⟨h.children, fun hall => h.shaped fun hkind => hmono (hall hkind)⟩

theorem wellFormed (h : Made source true n) (hframed : n.Framed source) : n.WellFormed source :=
  .of_shaped hframed (h.shaped fun _ => rfl) h.children

theorem of_comment {whole : Bool} (h : n.IsCommentIn source) : Made source whole n := by
  rw [h.eq]
  exact ⟨fun _ hchild => absurd hchild List.not_mem_nil,
    fun _ => .of_not_mem (show Kind.comment ∉ _ by decide)⟩

theorem leaf {lexeme : Lexeme} {count : Nat} {whole : Bool} (hc : c.At source)
    (hproper : (leaf kind lexeme : Grammar ρ).proper table = true)
    (hcount : lexeme.length? c.rest = some count) :
    Made source whole (.mk kind none (c.spanTo (c.advance count)) []) := by
  refine ⟨fun _ hchild => absurd hchild List.not_mem_nil, fun _ => ?_⟩
  unfold proper at hproper
  split at hproper
  · next hleaf =>
    obtain ⟨rfl, rfl⟩ := Grammar.leaf.inj hleaf
    obtain ⟨hrest, hne, hlength⟩ := Lexeme.nameLength_of_identifier hcount
    refine .name_of_leaf (Or.inl rfl) (Int.ofNat_lt.mpr (hc.lt_advance hrest hne)) fun _ => ?_
    rw [hc.slice_spanTo (hc.advance count).1]
    refine hc.encoded_advance ?_
    rw [← hlength]
    exact Lexeme.isSome_scalar_of_nameLength _
  · next hleaf =>
    obtain ⟨rfl, rfl⟩ := Grammar.leaf.inj hleaf
    exact .of_not_mem (show kind ∉ _ by simpa using hproper)
  all_goals next hleaf => exact absurd hleaf (by simp)

theorem raw {whole : Bool} {span : Span} (hkind : kind ∉ Kind.shaped) :
    Made source whole (.mk kind none span []) :=
  ⟨fun _ hchild => absurd hchild List.not_mem_nil, fun _ => .of_not_mem hkind⟩

theorem withField {whole : Bool} (h : Made source whole n) (field : Option Field) :
    Made source whole (n.withField field) :=
  ⟨h.children, fun hall => (h.shaped hall).withField field⟩

end Made

/-- A name in front is not empty. -/
theorem Reads.exists_name (h : Reads rules g c nodes d) (hc : c.At source)
    (hnamed : g.named = true) :
    ∃ n ∈ nodes, n.isComment = false ∧ n.span.start < n.span.stop := by
  unfold named at hnamed
  split at hnamed
  · rw [bne_iff_ne] at hnamed
    cases h with
    | idle hidle => cases hidle
    | unfold hunfolds => cases hunfolds
    | seq hfirst _ =>
      cases hfirst with
      | idle hidle => cases hidle
      | unfold hunfolds => cases hunfolds
      | leaf htrivia hcount =>
        obtain ⟨hrest, hne, -⟩ := Lexeme.nameLength_of_identifier hcount
        have hat := (Trivia.between_of_upToToken hc htrivia).1.cursor
        exact ⟨_, List.mem_append_left _ (List.mem_append_right _ (List.mem_singleton.mpr rfl)),
          beq_false_of_ne hnamed, Int.ofNat_lt.mpr (hat.lt_advance hrest hne)⟩
  · exact absurd hnamed Bool.false_ne_true

/-- So what starts with a name is not empty either. -/
theorem start_lt_of_name {before rest : List Node} (h : Spread source c (before ++ rest) d)
    (hbefore : ∀ n ∈ before, n.isComment = true)
    (hname : ∃ n ∈ before ++ rest, n.isComment = false ∧ n.span.start < n.span.stop) :
    (rest.head?.map (·.span.start)).getD (d.offset : Int) < d.offset := by
  obtain ⟨n, hn, hcomment, hlt⟩ := hname
  have hmem : n ∈ rest := by
    rcases List.mem_append.mp hn with hn | hn
    · exact absurd (hcomment.symm.trans (hbefore n hn)) (by decide)
    · exact hn
  have hstop := (h.row.inside _ (List.mem_map_of_mem hn)).2.2
  have hrow := h.row
  rw [List.map_append] at hrow
  have hrest := hrow.sublist (List.sublist_append_right _ _)
  cases rest with
  | nil => exact absurd hmem List.not_mem_nil
  | cons first rest =>
    rcases List.mem_cons.mp hmem with rfl | hmem
    · exact hlt.trans_le hstop
    · have hin := hrest.inside first.span List.mem_cons_self
      have hbefore : first.span.Before n.span :=
        (List.pairwise_cons.mp hrest.inOrder).1 _ (List.mem_map_of_mem hmem)
      exact ((hin.2.1.trans hbefore).trans_lt hlt).trans_le hstop

/-- Imports and exports that may not be read are not read. -/
theorem Reads.plain (h : Reads rules g c nodes d) (hc : c.At source) (hsound : Sound rules table)
    (hmay :
      (!g.may table (.kind .importStatement) && !g.may table (.kind .exportStatement)) = true) :
    ∀ n ∈ nodes, n.kind ≠ .importStatement ∧ n.kind ≠ .exportStatement := by
  intro n hn
  rw [Bool.and_eq_true, Bool.not_eq_true', Bool.not_eq_true'] at hmay
  refine ⟨fun hkind => ?_, fun hkind => ?_⟩
  · have hread : g.may table (.kind .importStatement) = true :=
      h.may_of_mem hc (hsound.may _) (by decide) hn hkind
    exact absurd (hmay.1.symm.trans hread) (by decide)
  · have hread : g.may table (.kind .exportStatement) = true :=
      h.may_of_mem hc (hsound.may _) (by decide) hn hkind
    exact absurd (hmay.2.symm.trans hread) (by decide)

/-- **The parts of a node** stand in their places. -/
theorem Reads.shaped_gather {kind : Kind} {before rest : List Node}
    (h : Reads rules g c (before ++ rest) d) (hc : c.At source) (hsound : Sound rules table)
    (hbefore : ∀ n ∈ before, n.isComment = true) (hshapes : shapes table g kind = true)
    (hgeneric : kind ≠ .genericType) :
    (Node.mk kind none ⟨(rest.head?.map (·.span.start)).getD (d.offset : Int), d.offset⟩
      rest).Shaped source := by
  have hspread := h.spread hc
  have hrow : Span.Row ⟨c.offset, d.offset⟩ (rest.map (·.span)) :=
    hspread.row.sublist ((List.sublist_append_right _ _).map _)
  have hturn : ∀ x y : Mark, x ≠ .kind .comment ∧ y ≠ .kind .comment →
      g.apart table x y = true → InTurn x y rest := fun _ _ hmarks hapart =>
    (h.inTurn hc (hsound.may _) (hsound.may _) hmarks hapart).sublist
      (List.sublist_append_right _ _)
  by_cases hkind : kind ∈ Kind.shaped
  · simp only [Kind.shaped, List.mem_cons, List.not_mem_nil, or_false] at hkind
    rcases hkind with rfl | rfl | rfl | rfl | rfl | rfl
    · exact absurd hshapes Bool.false_ne_true
    · have hname := h.exists_name hc hshapes
      exact .name_of_leaf (Or.inr rfl) (start_lt_of_name hspread hbefore hname) (by simp)
    · exact absurd rfl hgeneric
    · have hblock := hturn (.role .body) (.kind .extendsClause) (by decide) hshapes
      refine ⟨by simp [Node.kind], by simp [Node.kind], by simp [Node.kind],
        fun _ block hbody clause hclause hextends => ?_, by simp [Node.kind], by simp [Node.kind]⟩
      have hrole : block.field = some .body := by simpa using List.find?_some hbody
      exact hblock.before hrow hclause (List.mem_of_find?_eq_some hbody) hextends hrole
    · exact ⟨by simp [Node.kind], by simp [Node.kind], by simp [Node.kind], by simp [Node.kind],
        fun _ child hchild => h.plain hc hsound hshapes child (List.mem_append_right _ hchild),
        by simp [Node.kind]⟩
    · rw [shapes, Bool.and_eq_true, Bool.and_eq_true] at hshapes
      obtain ⟨⟨hmay, hdeclared⟩, hvalue⟩ := hshapes
      have hdeclared := hturn (.role .declaration) (.role .value) (by decide) hdeclared
      have hvalue := hturn (.role .value) (.role .declaration) (by decide) hvalue
      refine ⟨by simp [Node.kind], by simp [Node.kind], by simp [Node.kind], by simp [Node.kind],
        fun _ child hchild => h.plain hc hsound hmay child (List.mem_append_right _ hchild),
        fun _ => ?_⟩
      by_cases hno : ∀ child ∈ rest, child.field ≠ some .declaration
      · exact Or.inl hno
      · obtain ⟨child, hchild, hrole⟩ : ∃ child ∈ rest, child.field = some .declaration := by
          simpa using hno
        exact Or.inr fun other hother => hdeclared.never hvalue hchild hother hrole
  · exact .of_not_mem hkind

theorem Made.gather {kind : Kind} (h : Reads rules g c nodes d) (hc : c.At source)
    (hsound : Sound rules table) (hshapes : shapes table g kind = true)
    (hmade : ∀ n ∈ nodes, Made source true n) :
    ∀ n ∈ Node.gather kind nodes d.offset, Made source (kind != .genericType) n := by
  obtain ⟨before, rest, rfl, hbefore, -, hgather⟩ := Node.exists_gather kind nodes d.offset
  rw [hgather]
  intro n hn
  rcases List.mem_append.mp hn with hn | hn
  · exact (hmade n (List.mem_append_left _ hn)).mono fun _ => rfl
  rw [List.mem_singleton.mp hn]
  refine ⟨fun child hchild => ?_, fun hwhole => ?_⟩
  · have hmem := List.mem_append_right before hchild
    exact (hmade child hmem).wellFormed ((h.spread hc).framed child hmem)
  · refine h.shaped_gather hc hsound hbefore hshapes fun hkind => ?_
    exact absurd hkind (bne_iff_ne.mp (hwhole hkind))

theorem Made.label {field : Field} {whole : Bool} (hmade : ∀ n ∈ nodes, Made source whole n) :
    ∀ n ∈ Node.label field nodes, Made source whole n := by
  intro n hn
  obtain ⟨m, hm, rfl⟩ := List.mem_map.mp hn
  split
  · exact hmade m hm
  · exact (hmade m hm).withField _

/-- **What is built upon an operand** is a whole node. -/
theorem Made.extend {operand step : Grammar ρ} {e : Cursor} {before more : List Node} {first : Node}
    (h : Reads rules (.chain operand step) c (before ++ [first]) d)
    (hstep : Reads rules step d more e)
    (hc : c.At source) (hsound : Sound rules table) (hjoins : joins table operand step = true)
    (hfirst : Made source true first) (hmore : ∀ n ∈ more, Made source step.whole n) :
    Made source true (first.extend more) := by
  have hspread := h.spread hc
  have hd := hspread.at_
  have hlast := List.mem_append_right before (List.mem_singleton.mpr (rfl : first = first))
  have hwell := hfirst.wellFormed (hspread.framed first hlast)
  have hrow := ((hspread.extend (hstep.spread hd)).framed (first.extend more)
    (List.mem_append_right _ (List.mem_singleton.mpr rfl))).row
  rcases Node.extend_eq first more with heq | ⟨comments, n, rest, rfl, hcomments, hn, heq⟩
  · rw [heq]
    exact hfirst
  have hmem : n ∈ comments ++ n :: rest := List.mem_append_right _ List.mem_cons_self
  rw [heq] at hrow ⊢
  refine ⟨fun child hchild => ?_, fun _ => ?_⟩
  · rcases List.mem_append.mp hchild with hchild | hchild
    · rcases List.mem_cons.mp hchild with rfl | hchild
      · exact hwell.withField _
      · have hmem := List.mem_append_left (n :: rest) hchild
        have hkind : child.kind = .comment := beq_iff_eq.mp (hcomments child hchild)
        have hmade := hmore child hmem
        exact .of_shaped ((hstep.spread hd).framed child hmem)
          (hmade.shaped fun h => absurd (hkind.symm.trans h) (by decide)) hmade.children
    · exact (hmore n hmem).children child hchild
  · by_cases hkind : n.kind ∈ Kind.shaped
    · unfold joins at hjoins
      split at hjoins
      · -- the operand is a name that is applied to types
        have hgeneric := hstep.kind_of_node hd hmem hn
        have hname := h.kind_of_namesType hc hjoins List.getLast?_concat
        rw [hgeneric] at hrow ⊢
        refine .of_applied rfl hrow (hwell.nonempty hname) fun harguments => ?_
        rw [harguments] at hname
        exact absurd hname (by decide)
      · have hread : step.may table (.kind n.kind) = true :=
          hstep.may_of_mem hd (hsound.may _) (kind_ne_comment hn) hmem rfl
        have hno := List.all_eq_true.mp hjoins _ hkind
        rw [hread] at hno
        exact absurd hno (by decide)
    · exact .of_not_mem hkind

/-- What a grammar comes down to is proper as well. -/
theorem Sound.unfold {g' : Grammar ρ} (hsound : Sound rules table) (hunfolds : Unfolds rules g g')
    (hproper : g.proper table = true) :
    g'.proper table = true ∧ (g.whole = true → g'.whole = true) := by
  cases hunfolds with
  | first first second =>
    rw [Grammar.proper, Bool.and_eq_true] at hproper
    exact ⟨hproper.1, fun h => ((Bool.and_eq_true _ _).mp h).1⟩
  | second first second =>
    rw [Grammar.proper, Bool.and_eq_true] at hproper
    exact ⟨hproper.2, fun h => ((Bool.and_eq_true _ _).mp h).2⟩
  | again item =>
    exact ⟨(Bool.and_eq_true _ _).mpr ⟨hproper, hproper⟩,
      fun h => (Bool.and_eq_true _ _).mpr ⟨h, h⟩⟩
  | semicolon => exact ⟨rfl, fun _ => rfl⟩
  | operand operand step =>
    rw [Grammar.proper, Bool.and_eq_true, Bool.and_eq_true, Bool.and_eq_true] at hproper
    exact ⟨hproper.1.1.1, fun _ => hproper.1.1.2⟩
  | rule name => exact ⟨hsound.proper name, fun _ => hsound.whole name⟩

theorem Reads.made (h : Reads rules g c nodes d) (hc : c.At source) (hsound : Sound rules table)
    (hproper : g.proper table = true) : ∀ n ∈ nodes, Made source g.whole n := by
  induction h with
  | idle => exact fun n hn => absurd hn List.not_mem_nil
  | leaf htrivia hcount =>
    have hbetween := (Trivia.between_of_upToToken hc htrivia).1
    refine fun n hn => (List.mem_append.mp hn).elim
      (fun hn => .of_comment (hbetween.comments n hn)) fun hn => ?_
    rw [List.mem_singleton.mp hn]
    exact .leaf hbetween.cursor hproper hcount
  | raw =>
    intro n hn
    rw [List.mem_singleton.mp hn]
    rw [proper] at hproper
    exact .raw (by simpa using hproper)
  | endOfLine htrivia =>
    exact fun n hn => .of_comment ((Trivia.between_of_upToLineBreak hc htrivia).comments n hn)
  | unfold hunfolds _ ih =>
    obtain ⟨hproper, hwhole⟩ := hsound.unfold hunfolds hproper
    exact fun n hn => (ih hc hproper n hn).mono hwhole
  | seq hfirst _ ih ih' =>
    rw [proper, Bool.and_eq_true] at hproper
    intro n hn
    rcases List.mem_append.mp hn with hn | hn
    · exact (ih hc hproper.1 n hn).mono fun h => ((Bool.and_eq_true _ _).mp h).1
    · exact (ih' (hfirst.spread hc).at_ hproper.2 n hn).mono fun h =>
        ((Bool.and_eq_true _ _).mp h).2
  | node hparts ih =>
    rw [proper, Bool.and_eq_true, Bool.and_eq_true] at hproper
    refine .gather hparts hc hsound hproper.2 fun n hn => ?_
    exact (ih hc hproper.1.1 n hn).mono fun _ => hproper.1.2
  | labelled _ ih => exact .label (ih hc hproper)
  | chain hbefore hstep ih ih' =>
    have hall := ih hc hproper
    rw [proper, Bool.and_eq_true, Bool.and_eq_true, Bool.and_eq_true] at hproper
    intro n hn
    rcases List.mem_append.mp hn with hn | hn
    · exact hall n (List.mem_append_left _ hn)
    · rw [List.mem_singleton.mp hn]
      exact .extend hbefore hstep hc hsound hproper.2
        (hall _ (List.mem_append_right _ (List.mem_singleton.mpr rfl)))
        (ih' (hbefore.spread hc).at_ hproper.1.2)

/-- **Proper grammars read well-formed nodes.** -/
theorem Reads.wellFormed (h : Reads rules g c nodes d) (hc : c.At source)
    (hsound : Sound rules table) (hproper : g.proper table = true) (hwhole : g.whole = true) :
    ∀ n ∈ nodes, n.WellFormed source := by
  intro n hn
  have hmade := h.made hc hsound hproper n hn
  rw [hwhole] at hmade
  exact hmade.wellFormed ((h.spread hc).framed n hn)

end Grammar

end TypeGraft.Syntax
