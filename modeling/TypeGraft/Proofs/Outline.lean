import TypeGraft.Mention
import TypeGraft.Outline.Scan
import TypeGraft.Proofs.Table

/-!
# What a scan declares

A scan goes through the statements of a script and changes one outline. Whatever it meets, the
outline stays the one of its file, and keeps every declaration under the name that the
declaration has (`TypeGraft.Outline.WellFormed`). So the key of a declaration that is found in
an outline is the path of the outline with the name that was looked for, which is what the
search relies on.

What it keeps is also true to the script (`TypeGraft.Outline.Sound`): a base of an interface is
called what stands in its slot, and all names of an import statement are listed among the imports.

**What each step comes to** is told once, so that no later proof has to open the scan: a declaration
(`TypeGraft.Outline.DeclaredAt`), a base (`TypeGraft.Outline.ReadsBase`), and the visits of a node,
of the parts of an export and of those of an ambient declaration (`TypeGraft.Outline.Visited`,
`TypeGraft.Outline.ExportVisited`, `TypeGraft.Outline.AmbientVisited`).
-/

namespace TypeGraft

/-- The names that an import statement brings in, but for a name of all of the module. -/
def Import.names (stmt : Import) : List String :=
  stmt.default.toList.map (·.name) ++ stmt.named.map (·.1.name)

/-! ### Names of mentions -/

section Mentions

variable {source : Bytes} {m : Mention}

theorem Mention.name_of_mem_ofType {kind : MentionKind} {type : Syntax.Node}
    (hm : m ∈ Mention.ofType source kind type) :
    m.name = Bytes.toStringLossy (m.span.slice source) := by
  obtain ⟨node, -, rfl⟩ := List.mem_map.mp hm
  rfl

theorem Mention.name_of_mem_ofBlock {block : Syntax.Node} (hm : m ∈ Mention.ofBlock source block) :
    m.name = Bytes.toStringLossy (m.span.slice source) := by
  obtain ⟨type, -, hm⟩ := List.mem_flatMap.mp hm
  split at hm
  · rw [List.mem_singleton.mp hm]
    rfl
  · exact name_of_mem_ofType hm

/-- **What is mentioned is called what stands in its slot**, if what is extended is. -/
theorem Declaration.name_of_mem_mentions {d : Declaration}
    (hbases : ∀ base ∈ d.bases, base.name = Bytes.toStringLossy (base.slot.slice source))
    (hm : m ∈ d.mentions source) : m.name = Bytes.toStringLossy (m.span.slice source) := by
  unfold mentions at hm
  unfold bases at hbases
  split at hm
  · split at hm
    · exact Mention.name_of_mem_ofBlock hm
    · exact Mention.name_of_mem_ofType hm
  · next hshape =>
    rw [hshape] at hbases
    rcases List.mem_append.mp hm with hm | hm
    · obtain ⟨base, hbase, hm⟩ := List.mem_flatMap.mp hm
      rcases List.mem_cons.mp hm with rfl | hm
      · exact hbases base hbase
      · obtain ⟨type, -, hm⟩ := List.mem_flatMap.mp hm
        exact Mention.name_of_mem_ofType hm
    · exact Mention.name_of_mem_ofBlock hm
  · exact absurd hm List.not_mem_nil

end Mentions

namespace Outline

open Syntax

/-- **A well-formed outline** keeps each declaration under its own key. -/
def WellFormed (o : Outline) : Prop :=
  ∀ name d, o.declarations.get? name = some d → d.key = ⟨o.path, name⟩

theorem wellFormed_empty (path : String) (source : Bytes) : (empty path source).WellFormed := by
  intro name d h
  exact absurd h (by simp [empty])

/-- **An outline that is true to its script.** -/
structure Sound (o : Outline) : Prop where
  spelled : ∀ name d, o.declarations.get? name = some d →
    ∀ base ∈ d.bases, o.text base.slot = base.name
  imported : ∀ stmt ∈ o.importList, ∀ name ∈ stmt.names, (o.imports.get? name).isSome

theorem sound_empty (path : String) (source : Bytes) : (empty path source).Sound :=
  ⟨fun name d h => absurd h (by simp [empty]), fun _ h => absurd h List.not_mem_nil⟩

/-- **What every part of a scan does to an outline**: it stays the outline of the same file,
and it stays well-formed and sound. -/
structure Grows (before after : Outline) : Prop where
  path : after.path = before.path
  source : after.source = before.source
  wellFormed : before.WellFormed → after.WellFormed
  sound : before.Sound → after.Sound

namespace Grows

variable {o o' o'' : Outline}

theorem refl (o : Outline) : o.Grows o := ⟨rfl, rfl, id, id⟩

theorem trans (h : o.Grows o') (h' : o'.Grows o'') : o.Grows o'' :=
  ⟨h'.path.trans h.path, h'.source.trans h.source, fun hw => h'.wellFormed (h.wellFormed hw),
    fun hs => h'.sound (h.sound hs)⟩

/-- A change that leaves the declarations alone. -/
theorem of_declarations (hpath : o'.path = o.path) (hsource : o'.source = o.source)
    (h : o'.declarations = o.declarations)
    (himported : o.Sound → ∀ stmt ∈ o'.importList, ∀ name ∈ stmt.names,
      (o'.imports.get? name).isSome) : o.Grows o' := by
  refine ⟨hpath, hsource, ?_, fun hs => ⟨?_, himported hs⟩⟩
  · intro hw name d hd
    rw [h] at hd
    rw [hpath]
    exact hw name d hd
  · intro name d hd base hbase
    rw [h] at hd
    rw [text, hsource]
    exact hs.spelled name d hd base hbase

end Grows

/-! ### Declarations -/

/-- **What is declared at a node**: what is copied of it, and what it is. -/
inductive DeclaredAs (source : Bytes) (node : Node) (d : Declaration) : Prop where
  | ofAlias (value : Node) (kind : node.kind = .typeAlias) (found : node.child? .value = some value)
      (shape : d.shape = .alias value) (body : d.body = value.span)
      (content : d.content = value.bytes source)
  | ofInterface (block : Node) (kind : node.kind = .interface)
      (found : node.child? .body = some block)
      (shape : d.shape = .interface (bases source node) block) (body : d.body = block.span)
      (content : d.content = block.bytes source)
  | ofEnumeration (kinds : List ValueKind) (kind : node.kind = .enumeration)
      (shape : d.shape = .enumeration) (body : d.body = node.span)
      (content : d.content = Bytes.ofString (enumerationBody kinds))

/-- **A declaration at a node** that is part of a statement. -/
structure DeclaredAt (path : String) (source : Bytes) (statement node : Node) (d : Declaration) :
    Prop where
  file : d.file = path
  span : d.span = node.span
  statement : d.statement = statement.span
  line : d.line = lineAt source node.span.start
  declaredAs : DeclaredAs source node d

theorem declaredAt_of_declaration? {path : String} {source : Bytes} {statement node : Node}
    {d : Declaration} (h : declaration? path source statement node = some d) :
    DeclaredAt path source statement node d := by
  unfold declaration? at h
  cases hname : node.child? .name with
  | none => simp [hname] at h
  | some name =>
    simp only [hname, Option.bind_eq_bind, Option.bind_some] at h
    split at h
    · next hkind =>
      obtain ⟨value, hvalue, hd⟩ := Option.bind_eq_some_iff.mp h
      rw [← Option.some.inj hd]
      exact ⟨rfl, rfl, rfl, rfl, .ofAlias value hkind hvalue rfl rfl rfl⟩
    · next hkind =>
      obtain ⟨block, hblock, hd⟩ := Option.bind_eq_some_iff.mp h
      rw [← Option.some.inj hd]
      exact ⟨rfl, rfl, rfl, rfl, .ofInterface block hkind hblock rfl rfl rfl⟩
    · next hkind =>
      rw [← Option.some.inj h]
      exact ⟨rfl, rfl, rfl, rfl, .ofEnumeration _ hkind rfl rfl rfl⟩
    · exact absurd h (by simp)

/-- Only an interface has bases. -/
theorem DeclaredAs.bases {source : Bytes} {node : Node} {d : Declaration}
    (h : DeclaredAs source node d) : d.bases = [] ∨ d.bases = Outline.bases source node := by
  unfold Declaration.bases
  cases h with
  | ofAlias _ _ _ shape => exact Or.inl (by rw [shape])
  | ofInterface _ _ _ shape => exact Or.inr (by rw [shape])
  | ofEnumeration _ _ shape => exact Or.inl (by rw [shape])

theorem DeclaredAs.mem_bases {source : Bytes} {node : Node} {d : Declaration} {base : Heritage}
    (h : DeclaredAs source node d) (hbase : base ∈ d.bases) : base ∈ Outline.bases source node := by
  rcases h.bases with hnone | hbases
  · rw [hnone] at hbase
    exact absurd hbase List.not_mem_nil
  · exact hbases ▸ hbase

/-- **A base as it is read off a node**: one that stands by itself, or one with type arguments. -/
inductive ReadsBase (source : Bytes) (type : Node) : Heritage → Prop where
  | whole (kind : type.kind = .typeIdentifier ∨ type.kind = .qualifiedType) :
      ReadsBase source type ⟨type.text source, type.span, type.span, type.text source, none⟩
  | applied (name : Node) (kind : type.kind = .genericType)
      (eq : name = (type.child? .name).getD type) :
      ReadsBase source type
        ⟨name.text source, name.span, type.span, type.text source, type.childOfKind? .typeArguments⟩

theorem readsBase_of_heritage? {source : Bytes} {type : Node} {base : Heritage}
    (h : heritage? source type = some base) : ReadsBase source type base := by
  unfold heritage? at h
  dsimp only at h
  split at h
  · next hkind =>
    rw [← Option.some.inj h]
    exact .applied _ hkind rfl
  · next hkind =>
    rw [← Option.some.inj h]
    exact .whole (Or.inl hkind)
  · next hkind =>
    rw [← Option.some.inj h]
    exact .whole (Or.inr hkind)
  · exact absurd h (by simp)

theorem exists_readsBase_of_mem_bases {source : Bytes} {node : Node} {base : Heritage}
    (h : base ∈ bases source node) : ∃ clause ∈ node.children, clause.kind = .extendsClause ∧
      ∃ type ∈ clause.namedChildren, ReadsBase source type base := by
  obtain ⟨clause, hclause, h⟩ := List.mem_flatMap.mp h
  obtain ⟨type, htype, h⟩ := List.mem_filterMap.mp h
  exact ⟨clause, List.mem_of_mem_filter hclause, beq_iff_eq.mp (List.mem_filter.mp hclause).2, type,
    htype, readsBase_of_heritage? h⟩

/-- What an interface extends is called what stands in its slot. -/
theorem spelled_of_declaration? {path : String} {source : Bytes} {statement node : Node}
    {d : Declaration} (h : declaration? path source statement node = some d) :
    ∀ base ∈ d.bases, Bytes.toStringLossy (base.slot.slice source) = base.name := by
  intro base hbase
  obtain ⟨-, -, -, type, -, hreads⟩ :=
    exists_readsBase_of_mem_bases ((declaredAt_of_declaration? h).declaredAs.mem_bases hbase)
  cases hreads <;> rfl

theorem grows_of_declare {strict : Bool} {statement node : Node} {d : Declaration} {o o' : Outline}
    {events : List Event} (hd : declaration? o.path o.source statement node = some d)
    (h : declare strict d o = .ok (o', events)) : o.Grows o' := by
  have hput : o.Grows { o with declarations := o.declarations.put d.name d } := by
    refine ⟨rfl, rfl, ?_, fun hs => ⟨?_, hs.imported⟩⟩
    · intro hw name d' hd'
      rw [Table.get?_put] at hd'
      split at hd'
      · next hname =>
        rw [← Option.some.inj hd', ← hname, ← (declaredAt_of_declaration? hd).file]
        rfl
      · exact hw name d' hd'
    · intro name d' hd'
      rw [Table.get?_put] at hd'
      split at hd'
      · rw [← Option.some.inj hd']
        exact spelled_of_declaration? hd
      · exact hs.spelled name d' hd'
  unfold declare at h
  split at h
  · obtain ⟨rfl, -⟩ := Prod.mk.inj (Except.ok.inj h)
    exact hput
  · split at h
    · exact absurd h (by simp)
    · obtain ⟨rfl, -⟩ := Prod.mk.inj (Except.ok.inj h)
      exact hput

/-! ### Imports and exports -/

/-- The names of a statement are those of its parts. -/
theorem exists_of_mem_names {source : Bytes} {specifier name : String} {parts : List Node}
    {stmt : Import} (h : name ∈ (parts.foldl (addPart source specifier) stmt).names) :
    name ∈ stmt.names ∨ ∃ b ∈ parts.flatMap (partBindings source specifier), b.name = name := by
  induction parts generalizing stmt with
  | nil => exact Or.inl h
  | cons part parts ih =>
    rw [List.flatMap_cons]
    rcases ih h with hstmt | ⟨b, hb, hname⟩
    · have hpart : name ∈ stmt.names ∨
          ∃ b ∈ partBindings source specifier part, b.name = name := by
        unfold addPart Import.names at hstmt
        unfold partBindings Import.names
        split at hstmt
        · next hkind =>
          rw [hkind]
          rcases List.mem_append.mp hstmt with hdefault | hnamed
          · exact Or.inr ⟨_, List.mem_singleton_self _, (List.mem_singleton.mp hdefault).symm⟩
          · exact Or.inl (List.mem_append_right _ hnamed)
        · exact Or.inl hstmt
        · next hkind =>
          rw [hkind]
          dsimp only at hstmt ⊢
          rw [List.map_append, ← List.append_assoc] at hstmt
          refine (List.mem_append.mp hstmt).imp_right fun hnamed => ?_
          obtain ⟨entry, hentry, hname⟩ := List.mem_map.mp hnamed
          exact ⟨entry.1, List.mem_map.mpr ⟨entry, hentry, rfl⟩, hname⟩
        · exact Or.inl hstmt
      refine hpart.imp_right fun ⟨b, hb, hname⟩ => ⟨b, List.mem_append_left _ hb, hname⟩
    · exact Or.inr ⟨b, List.mem_append_right _ hb, hname⟩

theorem grows_addImport (node : Node) (o : Outline) : o.Grows (addImport node o) := by
  unfold addImport
  split
  · exact Grows.refl o
  · refine Grows.of_declarations rfl rfl rfl fun hs stmt hstmt name hname =>
      (Table.isSome_get?_foldl_put _ _ _ _).mpr ?_
    rcases List.mem_append.mp hstmt with hstmt | hstmt
    · exact Or.inl (hs.imported stmt hstmt name hname)
    · rw [List.mem_singleton.mp hstmt] at hname
      refine (exists_of_mem_names hname).imp_left fun hnone => ?_
      exact absurd hnone List.not_mem_nil

theorem grows_addExport (specifier : Option String) (o : Outline) (entry : Node) :
    o.Grows (addExport specifier o entry) := by
  cases specifier with
  | none => exact Grows.of_declarations rfl rfl rfl Sound.imported
  | some specifier => exact Grows.of_declarations rfl rfl rfl Sound.imported

theorem grows_addExports (node : Node) (o : Outline) : o.Grows (addExports node o) := by
  have hfold : ∀ (specifier : Option String) (entries : List Node) (o : Outline),
      o.Grows (entries.foldl (addExport specifier) o) := by
    intro specifier entries
    induction entries with
    | nil => exact Grows.refl
    | cons entry entries ih => exact fun o => (grows_addExport specifier o entry).trans (ih _)
  unfold addExports
  split
  · exact hfold _ _ o
  · dsimp only
    split
    · split
      · exact Grows.of_declarations rfl rfl rfl Sound.imported
      · exact Grows.refl o
    · exact Grows.refl o

theorem grows_exportDefault (name : String) (o : Outline) : o.Grows (exportDefault name o) :=
  Grows.of_declarations rfl rfl rfl Sound.imported

/-! ### What a visit comes to -/

theorem exists_of_map_eq_ok {ε α β : Type} {x : Except ε α} {f : α → β} {b : β}
    (h : x.map f = .ok b) : ∃ a, x = .ok a ∧ f a = b := by
  cases x with
  | error fault => exact absurd h (by simp [Except.map])
  | ok a => exact ⟨a, rfl, Except.ok.inj h⟩

section Visits

variable {strict : Bool} {statement node : Node} {o o' : Outline} {events : List Event}
  {name : Option String}

/-- **What the visit of a node comes to.** -/
inductive Visited (strict : Bool) (statement : Node) (o : Outline) (node : Node) :
    Outline → List Event → Option String → Prop where
  | imports (kind : node.kind = .importStatement) :
      Visited strict statement o node (addImport node o) [] none
  | exports {o' : Outline} {events : List Event} {name : Option String}
      (kind : node.kind = .exportStatement)
      (parts : visitExport strict node o node.children = .ok (o', events, name)) :
      Visited strict statement o node o' events name
  | ambient {o' : Outline} {events : List Event} {name : Option String}
      (kind : node.kind = .ambient)
      (parts : visitAmbient strict statement o node.children = .ok (o', events, name)) :
      Visited strict statement o node o' events name
  | nothing : Visited strict statement o node o [] none
  | declares {o' : Outline} {events : List Event} (d : Declaration)
      (found : declaration? o.path o.source statement node = some d)
      (declared : declare strict d o = .ok (o', events)) :
      Visited strict statement o node o' events (some d.name)

theorem visited_of_visit (h : visit strict statement o node = .ok (o', events, name)) :
    Visited strict statement o node o' events name := by
  obtain ⟨kind, field, span, children⟩ := node
  unfold visit at h
  split at h
  · obtain ⟨rfl, rfl, rfl⟩ := by simpa only [Except.ok.injEq, Prod.mk.injEq] using h
    exact .imports rfl
  · exact .exports rfl h
  · exact .ambient rfl h
  · dsimp only at h
    split at h
    · obtain ⟨rfl, rfl, rfl⟩ := by simpa only [Except.ok.injEq, Prod.mk.injEq] using h
      exact .nothing
    · next d hd =>
      obtain ⟨⟨o₁, first⟩, hdeclare, h⟩ := exists_of_map_eq_ok h
      obtain ⟨rfl, rfl, rfl⟩ := by simpa only [Prod.mk.injEq] using h
      exact .declares d hd hdeclare

/-- **What the visit of the parts of an export comes to.** -/
inductive ExportVisited (strict : Bool) (node : Node) (o : Outline) :
    List Node → Outline → List Event → Prop where
  | nothing : ExportVisited strict node o [] o []
  | default (text : String) : ExportVisited strict node o [] (exportDefault text o) []
  | exports : ExportVisited strict node o [] (addExports node o) []
  | declares {child : Node} {rest : List Node} {o' : Outline} {events : List Event}
      {name : Option String} (role : child.field = some .declaration)
      (declared : visit strict node o child = .ok (o', events, name)) :
      ExportVisited strict node o (child :: rest) o' events
  /-- What is declared is the default. -/
  | declaresDefault {child : Node} {rest : List Node} {o' : Outline} {events : List Event}
      {name : String} (role : child.field = some .declaration)
      (declared : visit strict node o child = .ok (o', events, some name)) :
      ExportVisited strict node o (child :: rest) (exportDefault name o') events
  | later {child : Node} {rest : List Node} {o' : Outline} {events : List Event}
      {name : Option String} (role : child.field ≠ some .declaration)
      (parts : visitExport strict node o rest = .ok (o', events, name)) :
      ExportVisited strict node o (child :: rest) o' events

theorem exportVisited_of_visitExport {children : List Node}
    (h : visitExport strict node o children = .ok (o', events, name)) :
    ExportVisited strict node o children o' events := by
  cases children with
  | nil =>
    unfold visitExport at h
    split at h
    · split at h
      · split at h
        · obtain ⟨rfl, rfl, -⟩ := by simpa only [Except.ok.injEq, Prod.mk.injEq] using h
          exact .default _
        · obtain ⟨rfl, rfl, -⟩ := by simpa only [Except.ok.injEq, Prod.mk.injEq] using h
          exact .nothing
      · obtain ⟨rfl, rfl, -⟩ := by simpa only [Except.ok.injEq, Prod.mk.injEq] using h
        exact .nothing
    · obtain ⟨rfl, rfl, -⟩ := by simpa only [Except.ok.injEq, Prod.mk.injEq] using h
      exact .exports
  | cons child rest =>
    unfold visitExport at h
    split at h
    · next hrole =>
      obtain ⟨⟨o₁, first, found⟩, hvisit, h⟩ := exists_of_map_eq_ok h
      cases found with
      | none =>
        obtain ⟨rfl, rfl, -⟩ := by simpa only [Prod.mk.injEq] using h
        exact .declares hrole hvisit
      | some text =>
        obtain ⟨rfl, rfl, -⟩ := by simpa only [Prod.mk.injEq] using h
        split
        · exact .declaresDefault hrole hvisit
        · exact .declares hrole hvisit
    · next hrole => exact .later hrole h

/-- **What the visit of the parts of an ambient declaration comes to.** -/
inductive AmbientVisited (strict : Bool) (statement : Node) (o : Outline) :
    List Node → Outline → List Event → Option String → Prop where
  | nothing : AmbientVisited strict statement o [] o [] none
  /-- The first declaration ends the visit. -/
  | declares {child : Node} {rest : List Node} {o' : Outline} {events : List Event} {name : String}
      (declared : visit strict statement o child = .ok (o', events, some name)) :
      AmbientVisited strict statement o (child :: rest) o' events (some name)
  | both {child : Node} {rest : List Node} {o₁ o' : Outline} {events more : List Event}
      {name : Option String} (first : visit strict statement o child = .ok (o₁, events, none))
      (parts : visitAmbient strict statement o₁ rest = .ok (o', more, name)) :
      AmbientVisited strict statement o (child :: rest) o' (events ++ more) name
  | later {child : Node} {rest : List Node} {o' : Outline} {events : List Event}
      {name : Option String}
      (parts : visitAmbient strict statement o rest = .ok (o', events, name)) :
      AmbientVisited strict statement o (child :: rest) o' events name

theorem ambientVisited_of_visitAmbient {children : List Node}
    (h : visitAmbient strict statement o children = .ok (o', events, name)) :
    AmbientVisited strict statement o children o' events name := by
  cases children with
  | nil =>
    unfold visitAmbient at h
    obtain ⟨rfl, rfl, rfl⟩ := by simpa only [Except.ok.injEq, Prod.mk.injEq] using h
    exact .nothing
  | cons child rest =>
    unfold visitAmbient at h
    split at h
    · split at h
      · exact absurd h (by simp)
      · next hvisit =>
        obtain ⟨rfl, rfl, rfl⟩ := by simpa only [Except.ok.injEq, Prod.mk.injEq] using h
        exact .declares hvisit
      · next hvisit =>
        obtain ⟨⟨o₂, more, found⟩, hmore, h⟩ := exists_of_map_eq_ok h
        obtain ⟨rfl, rfl, rfl⟩ := by simpa only [Prod.mk.injEq] using h
        exact .both hvisit hmore
    · exact .later h

/-- One statement is visited, and then the others. -/
theorem exists_of_visitAll_cons {rest : List Node}
    (h : visitAll strict o (node :: rest) = .ok (o', events)) :
    ∃ o₁ first name more, visit strict node o node = .ok (o₁, first, name) ∧
      visitAll strict o₁ rest = .ok (o', more) ∧ events = first ++ more := by
  unfold visitAll at h
  split at h
  · exact absurd h (by simp)
  · next o₁ first name hvisit =>
    obtain ⟨⟨o₂, more⟩, hmore, h⟩ := exists_of_map_eq_ok h
    obtain ⟨rfl, rfl⟩ := Prod.mk.inj h
    exact ⟨o₁, first, name, more, hvisit, hmore, rfl⟩

end Visits

/-! ### Statements -/

mutual

theorem grows_visit {strict : Bool} {statement : Node} {o o' : Outline} {events : List Event}
    {name : Option String} :
    (node : Node) → visit strict statement o node = .ok (o', events, name) → o.Grows o'
  | .mk kind field span children, h => by
    cases visited_of_visit h with
    | imports => exact grows_addImport _ o
    | exports _ hparts => exact grows_visitExport children hparts
    | ambient _ hparts => exact grows_visitAmbient children hparts
    | nothing => exact Grows.refl o
    | declares d hd hdeclare => exact grows_of_declare hd hdeclare

theorem grows_visitExport {strict : Bool} {node : Node} {o o' : Outline} {events : List Event}
    {name : Option String} :
    (children : List Node) → visitExport strict node o children = .ok (o', events, name) →
      o.Grows o'
  | [], h => by
    cases exportVisited_of_visitExport h with
    | nothing => exact Grows.refl o
    | default text => exact grows_exportDefault text o
    | exports => exact grows_addExports node o
  | child :: rest, h => by
    cases exportVisited_of_visitExport h with
    | declares _ hvisit => exact grows_visit child hvisit
    | declaresDefault _ hvisit => exact (grows_visit child hvisit).trans (grows_exportDefault _ _)
    | later _ hparts => exact grows_visitExport rest hparts

theorem grows_visitAmbient {strict : Bool} {statement : Node} {o o' : Outline}
    {events : List Event} {name : Option String} :
    (children : List Node) → visitAmbient strict statement o children = .ok (o', events, name) →
      o.Grows o'
  | [], h => by
    cases ambientVisited_of_visitAmbient h with
    | nothing => exact Grows.refl o
  | child :: rest, h => by
    cases ambientVisited_of_visitAmbient h with
    | declares hvisit => exact grows_visit child hvisit
    | both hvisit hparts => exact (grows_visit child hvisit).trans (grows_visitAmbient rest hparts)
    | later hparts => exact grows_visitAmbient rest hparts

end

theorem grows_visitAll {strict : Bool} {nodes : List Node} {o o' : Outline} {events : List Event}
    (h : visitAll strict o nodes = .ok (o', events)) : o.Grows o' := by
  induction nodes generalizing o events with
  | nil =>
    obtain ⟨rfl, -⟩ := Prod.mk.inj (Except.ok.inj h)
    exact Grows.refl o
  | cons node rest ih =>
    obtain ⟨o₁, first, name, more, hvisit, hmore, -⟩ := exists_of_visitAll_cons h
    exact (grows_visit node hvisit).trans (ih hmore)

/-- **The outline of a script** is the outline of its file, and is well-formed. -/
theorem wellFormed_ofTree {strict : Bool} {path : String} {source : Bytes} {tree : Node}
    {o : Outline} {events : List Event} (h : ofTree strict path source tree = .ok (o, events)) :
    o.path = path ∧ o.WellFormed := by
  have hgrows := grows_visitAll h
  exact ⟨hgrows.path, hgrows.wellFormed (wellFormed_empty path source)⟩

/-- **The outline of a script** is true to it. -/
theorem sound_ofTree {strict : Bool} {path : String} {source : Bytes} {tree : Node}
    {o : Outline} {events : List Event} (h : ofTree strict path source tree = .ok (o, events)) :
    o.source = source ∧ o.Sound := by
  have hgrows := grows_visitAll h
  exact ⟨hgrows.source, hgrows.sound (sound_empty path source)⟩

end Outline

end TypeGraft
