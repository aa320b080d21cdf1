import TypeGraft.Proofs.Outline.Comments

/-!
# Scanning a script with comments

When comments are put in among the parts of a script (`TypeGraft.Syntax.Commented`), a scan comes to
an outline that says the same (`TypeGraft.Outline.Alike`), or finds the same name declared twice
(`TypeGraft.Outline.alike_ofTree`). Nearly all that is read off a script is picked by its role or
its kind. Three things may be lost: what a declaration mentions, what an enumeration stands for, and
whether an import statement ends in a semicolon.
-/

namespace TypeGraft

open Syntax Syntax.Node

variable {clear : Prop} {source source' : Bytes} {parent : Kind} {n n' : Node}

/-! ### Tables -/

/-- Two tables have the same keys in the same order, with related values. -/
def Table.Alike {α β γ : Type} (R : β → γ → Prop) (t : Table α β) (t' : Table α γ) : Prop :=
  List.Forall₂ (fun e e' => e'.1 = e.1 ∧ R e.2 e'.2) t t'

namespace Table.Alike

variable {α β γ : Type} [DecidableEq α] {R : β → γ → Prop} {t : Table α β} {t' : Table α γ}

theorem get? (h : Table.Alike R t t') (k : α) : Option.Rel R (t.get? k) (t'.get? k) := by
  induction h with
  | nil => exact .none
  | @cons e e' _ _ he _ ih =>
    rw [Table.get?, Table.get?, he.1]
    split
    · exact .some he.2
    · exact ih

theorem put (h : Table.Alike R t t') (k : α) {v : β} {v' : γ} (hv : R v v') :
    Table.Alike R (t.put k v) (t'.put k v') := by
  induction h with
  | nil => exact .cons ⟨rfl, hv⟩ .nil
  | @cons e e' _ _ he hrest ih =>
    rw [Table.put, Table.put, he.1]
    split
    · exact .cons ⟨rfl, hv⟩ hrest
    · exact .cons ⟨rfl, he.2⟩ ih

end Table.Alike

/-! ### Imports and exports -/

/-- What a binding says, apart from where it stands. -/
def Binding.told (b : Binding) : String × String × String := (b.name, b.foreignName, b.specifier)

/-- Two bindings say the same. -/
def Binding.Alike (b b' : Binding) : Prop := b'.told = b.told

theorem Binding.alike_foldl_put {bs bs' : List Binding} {t t' : Table String Binding}
    (ht : Table.Alike Binding.Alike t t') (hbs : List.Forall₂ Binding.Alike bs bs') :
    Table.Alike Binding.Alike (bs.foldl (fun t b => t.put b.name b) t)
      (bs'.foldl (fun t b => t.put b.name b) t') := by
  induction hbs generalizing t t' with
  | nil => exact ht
  | @cons b b' _ _ hb _ ih =>
    have hname : b'.name = b.name := congrArg Prod.fst hb
    rw [List.foldl_cons, List.foldl_cons, hname]
    exact ih (ht.put _ hb)

/-- **Two import statements say the same.** A comment at the end hides a semicolon. -/
structure Import.Alike (clear : Prop) (i i' : Import) : Prop where
  quotedModule : i'.quotedModule = i.quotedModule
  typeOnly : i'.typeOnly = i.typeOnly
  default : Option.Rel Binding.Alike i.default i'.default
  wholeModule : i'.wholeModule.isSome = i.wholeModule.isSome
  named : List.Forall₂ (fun a b => Binding.Alike a.1 b.1) i.named i'.named
  terminated : i'.terminated = i.terminated ∨ ¬clear ∧ i'.terminated = false

/-- **Two outlines say the same**, and one mentions what is left of what the other does. -/
structure Outline.Alike (clear : Prop) (source source' : Bytes) (o o' : Outline) : Prop where
  reads : o.source = source
  reads' : o'.source = source'
  path : o'.path = o.path
  declarations : Table.Alike (Declaration.Alike clear source source') o.declarations o'.declarations
  imports : Table.Alike Binding.Alike o.imports o'.imports
  importList : List.Forall₂ (Import.Alike clear) o.importList o'.importList
  exports : o'.exports = o.exports
  reexports : Table.Alike Binding.Alike o.reexports o'.reexports
  starExports : o'.starExports = o.starExports

namespace Outline

variable {path specifier : String} {strict : Bool} {o o' : Outline}

theorem alike_namedBindings (h : Commented clear source source' parent n n') (specifier : String) :
    List.Forall₂ (fun a b => Binding.Alike a.1 b.1) (namedBindings source specifier n)
      (namedBindings source' specifier n') := by
  unfold namedBindings
  refine List.forall₂_map_left_iff.mpr (List.forall₂_map_right_iff.mpr
    ((h.ofKind .importSpecifier (by simp)).imp fun entry entry' ⟨hkind, hrel⟩ => ?_))
  have hholds : entry.kind.holdsNames = true := by rw [hkind]; rfl
  have hname := hrel.text_child?_eq .name hholds rfl
  have halias := hrel.text_child?_eq .alias hholds rfl
  dsimp only
  rw [Binding.Alike, Binding.told, Binding.told, binding, binding, hname, halias]

theorem alike_partBindings (h : Commented clear source source' parent n n') (specifier : String) :
    List.Forall₂ Binding.Alike (partBindings source specifier n)
      (partBindings source' specifier n') := by
  have htext : n.kind = .identifier → n'.text source' = n.text source := fun hkind =>
    h.text_eq (by simp [Node.isName, hkind])
  have hnamed := alike_namedBindings h specifier
  unfold partBindings
  rw [h.kind_eq]
  generalize n.kind = kind at htext
  split
  · refine .cons ?_ .nil
    rw [Binding.Alike, Binding.told, Binding.told, binding, binding, htext rfl]
  · exact List.forall₂_map_left_iff.mpr (List.forall₂_map_right_iff.mpr hnamed)
  · exact .nil

theorem alike_addPart (h : Commented clear source source' parent n n') (specifier : String)
    {i i' : Import} (hi : i.Alike clear i') :
    (addPart source specifier i n).Alike clear (addPart source' specifier i' n') := by
  have htext : n.kind = .identifier → n'.text source' = n.text source := fun hkind =>
    h.text_eq (by simp [Node.isName, hkind])
  have hnamed := alike_namedBindings h specifier
  unfold addPart
  rw [h.kind_eq]
  generalize n.kind = kind at htext
  split
  · refine { hi with default := .some ?_ }
    rw [Binding.Alike, Binding.told, Binding.told, binding, binding, htext rfl]
  · exact { hi with wholeModule := rfl }
  · exact { hi with named := List.rel_append hi.named hnamed }
  · exact hi

/-- A semicolon at the end is seen, unless a comment is put in behind it. -/
theorem terminated_eq_or (h : Commented clear source source' parent n n')
    (hkind : n.kind = .importStatement) :
    (n'.children.getLast?.map (·.kind == .token ";")).getD false =
        (n.children.getLast?.map (·.kind == .token ";")).getD false ∨
      ¬clear ∧ (n'.children.getLast?.map (·.kind == .token ";")).getD false = false := by
  have hlast := h.children.last (fun _ => true) rfl fun _ after hclear => by
    cases after with
    | nil => exact absurd rfl (hclear.final hkind)
    | cons => rfl
  rw [List.filter_true, List.filter_true] at hlast
  rcases hlast.found_or_hidden with
    ⟨hnone, hnone'⟩ | ⟨last, last', hlast, hlast', hrel⟩ | ⟨hlost, c, hc, hcomment⟩
  · rw [hnone, hnone']
    exact Or.inl rfl
  · rw [hlast, hlast', Option.map_some, Option.map_some, hrel.kind_eq]
    exact Or.inl rfl
  · rw [hc, Option.map_some, hcomment]
    exact Or.inr ⟨hlost, rfl⟩

/-- **What an import statement adds** is alike. -/
theorem alike_addImport (ho : o.Alike clear source source' o')
    (h : Commented clear source source' parent n n') (hkind : n.kind = .importStatement) :
    (addImport n o).Alike clear source source' (addImport n' o') := by
  obtain rfl := ho.reads
  obtain rfl := ho.reads'
  have hsource := h.text_child?_eq .source (by rw [hkind]; rfl) rfl
  unfold addImport
  rcases exists_of_rel (h.child? .source) with ⟨hnone, hnone'⟩ | ⟨c, c', hc, hc', hrel⟩
  · rw [hnone, hnone']
    exact ho
  rw [hc, hc', Option.map_some, Option.map_some] at hsource
  have hsource := Option.some.inj hsource
  rw [hc, hc']
  dsimp only
  rw [hsource]
  generalize unquoted (c.text o.source) = specifier
  have hempty : Import.Alike clear
      { span := n.span, quotedModule := c.text o.source, typeOnly := n.hasToken "type"
        terminated := (n.children.getLast?.map (·.kind == .token ";")).getD false
        default := none, wholeModule := none, named := [] }
      { span := n'.span, quotedModule := c.text o.source, typeOnly := n'.hasToken "type"
        terminated := (n'.children.getLast?.map (·.kind == .token ";")).getD false
        default := none, wholeModule := none, named := [] } := by
    refine ⟨rfl, ?_, .none, rfl, .nil, terminated_eq_or h hkind⟩
    exact h.children.any_eq (fun k _ => k == .token "type") rfl
  rcases exists_of_rel (h.childOfKind? .importClause (by simp)) with
    ⟨hnone, hnone'⟩ | ⟨clause, clause', hclause, hclause', hparts⟩
  · rw [hnone, hnone']
    exact { ho with importList := List.rel_append ho.importList (.cons hempty .nil) }
  rw [hclause, hclause']
  refine { ho with imports := ?_, importList := List.rel_append ho.importList (.cons ?_ .nil) }
  · change Table.Alike Binding.Alike ((clause.namedChildren.flatMap _).foldl _ _)
      ((clause'.namedChildren.flatMap _).foldl _ _)
    rw [List.foldl_flatMap, List.foldl_flatMap]
    refine hparts.children.foldl_named ho.imports (fun part part' hrel t t' ht => ?_)
      fun c hc t => ?_
    · exact Binding.alike_foldl_put ht (alike_partBindings hrel specifier)
    · rw [partBindings, hc]
      rfl
  · refine hparts.children.foldl_named hempty
      (fun part part' hrel i i' hi => alike_addPart hrel specifier hi) fun c hc i => ?_
    rw [addPart, hc]

/-- **What an entry of a list of exports adds** is alike. -/
theorem alike_addExport (ho : o.Alike clear source source' o')
    (h : Commented clear source source' parent n n') (hkind : n.kind = .exportSpecifier)
    (specifier : Option String) :
    (addExport specifier o n).Alike clear source source' (addExport specifier o' n') := by
  obtain rfl := ho.reads
  obtain rfl := ho.reads'
  have hname := h.text_child?_eq .name (by rw [hkind]; rfl) rfl
  have halias := h.text_child?_eq .alias (by rw [hkind]; rfl) rfl
  have hunquoted : ((n'.child? .alias).map fun c => unquoted (c.text o'.source)) =
      (n.child? .alias).map fun c => unquoted (c.text o.source) := by
    have hmap := congrArg (Option.map unquoted) halias
    rwa [Option.map_map, Option.map_map] at hmap
  unfold addExport
  dsimp only
  rw [hname, hunquoted]
  split
  · refine { ho with exports := ?_ }
    dsimp only
    rw [ho.exports]
  · exact { ho with reexports := ho.reexports.put _ rfl }

theorem alike_foldl_addExport (ho : o.Alike clear source source' o') (specifier : Option String)
    {entries entries' : List Node} (h : List.Forall₂ (fun c c' => c.kind = .exportSpecifier ∧
      Commented clear source source' parent c c') entries entries') :
    (entries.foldl (addExport specifier) o).Alike clear source source'
      (entries'.foldl (addExport specifier) o') := by
  induction h generalizing o o' with
  | nil => exact ho
  | cons hc _ ih => exact ih (alike_addExport ho hc.2 hc.1 specifier)

/-- **What an export without a declaration adds** is alike. -/
theorem alike_addExports (ho : o.Alike clear source source' o')
    (h : Commented clear source source' parent n n') (hkind : n.kind = .exportStatement) :
    (addExports n o).Alike clear source source' (addExports n' o') := by
  obtain rfl := ho.reads
  obtain rfl := ho.reads'
  have hsource : ((n'.child? .source).map fun c => unquoted (c.text o'.source)) =
      (n.child? .source).map fun c => unquoted (c.text o.source) := by
    have hmap := congrArg (Option.map unquoted) (h.text_child?_eq .source (by rw [hkind]; rfl) rfl)
    rwa [Option.map_map, Option.map_map] at hmap
  unfold addExports
  dsimp only
  rw [hsource]
  generalize (n.child? .source).map (fun c => unquoted (c.text o.source)) = specifier
  rcases exists_of_rel (h.childOfKind? .exportClause (by simp)) with
    ⟨hnone, hnone'⟩ | ⟨clause, clause', hclause, hclause', hentries⟩
  · rw [hnone, hnone']
    dsimp only
    split
    · have hspace : (n'.childOfKind? .namespaceExport).isNone =
          (n.childOfKind? .namespaceExport).isNone := by
        rcases exists_of_rel (h.childOfKind? .namespaceExport (by simp)) with
          ⟨hnone, hnone'⟩ | ⟨c, c', hc, hc', -⟩
        · rw [hnone, hnone']
        · rw [hc, hc']
          rfl
      have hstar : n'.hasToken "*" = n.hasToken "*" :=
        h.children.any_eq (fun k _ => k == .token "*") rfl
      rw [hspace, hstar]
      split
      · refine { ho with starExports := ?_ }
        dsimp only
        rw [ho.starExports]
      · exact ho
    · exact ho
  · rw [hclause, hclause']
    dsimp only
    exact alike_foldl_addExport ho specifier (hentries.ofKind .exportSpecifier (by simp))

end Outline

/-! ### Scanning -/

/-- Two warnings of one name that is declared again. -/
inductive Event.Alike : Event → Event → Prop where
  | redeclared (path name : String) (line first line' first' : Nat) :
      Event.Alike (.redeclared path line name first) (.redeclared path line' name first')

/-- **Two scans end alike**: with related results, or with one name that is declared twice. -/
inductive EndsAlike {α : Type} (S : α → α → Prop) : Except Fault α → Except Fault α → Prop where
  | fault (path name : String) (first second first' second' : Nat) :
      EndsAlike S (.error (.redeclared path name first second))
        (.error (.redeclared path name first' second'))
  | ok {a b : α} : S a b → EndsAlike S (.ok a) (.ok b)

namespace Outline

variable {path specifier : String} {strict : Bool} {o o' : Outline} {statement statement' : Node}
  {before ns ns' : List Node} {p : Place}

/-- Two scans come to like outlines, with like warnings. -/
def ScansTo (clear : Prop) (source source' : Bytes) (r r' : Outline × List Event) : Prop :=
  r.1.Alike clear source source' r'.1 ∧ List.Forall₂ Event.Alike r.2 r'.2

/-- Two visits come to like outlines, with like warnings, and declare one name. -/
def VisitsTo (clear : Prop) (source source' : Bytes) (r r' : Outline × List Event × Option String) :
    Prop :=
  r.1.Alike clear source source' r'.1 ∧ List.Forall₂ Event.Alike r.2.1 r'.2.1 ∧ r'.2.2 = r.2.2

theorem alike_declare (strict : Bool) (ho : o.Alike clear source source' o') {d d' : Declaration}
    (hd : d.Alike clear source source' d') :
    EndsAlike (ScansTo clear source source') (declare strict d o) (declare strict d' o') := by
  have hname : d'.name = d.name := congrArg Prod.fst hd.told
  have hput : Alike clear source source' { o with declarations := o.declarations.put d.name d }
      { o' with declarations := o'.declarations.put d.name d' } :=
    { ho with declarations := ho.declarations.put _ hd }
  unfold declare
  dsimp only
  rw [hname]
  rcases exists_of_rel (ho.declarations.get? d.name) with
    ⟨hnone, hnone'⟩ | ⟨first, first', hfirst, hfirst', -⟩
  · rw [hnone, hnone']
    exact .ok ⟨hput, .nil⟩
  · rw [hfirst, hfirst']
    dsimp only
    split
    · rw [ho.path]
      exact .fault _ _ _ _ _ _
    · refine .ok ⟨hput, .cons ?_ .nil⟩
      rw [ho.path]
      exact .redeclared _ _ _ _ _ _

/-- A comment says nothing. -/
theorem visit_of_comment {c : Node} (hkind : c.kind = .comment) :
    visit strict statement o c = .ok (o, [], none) := by
  obtain ⟨kind, field, span, children⟩ := c
  obtain rfl : kind = .comment := hkind
  unfold visit
  dsimp only
  have hnone :
      declaration? o.path o.source statement (.mk .comment field span children) = none := by
    unfold declaration?
    cases (Node.mk .comment field span children).child? .name <;> rfl
  rw [hnone]

/-- Warnings that came before. -/
theorem VisitsTo.more {v v' : Visit} {events events' : List Event}
    (h : EndsAlike (VisitsTo clear source source') v v')
    (hevents : List.Forall₂ Event.Alike events events') :
    EndsAlike (VisitsTo clear source source')
      (v.map fun r => (r.1, events ++ r.2.1, r.2.2))
      (v'.map fun r => (r.1, events' ++ r.2.1, r.2.2)) := by
  cases h with
  | fault => exact .fault _ _ _ _ _ _
  | ok hto => exact .ok ⟨hto.1, List.rel_append hevents hto.2.1, hto.2.2⟩

/-- **Parts of an ambient declaration** with comments in between. -/
theorem alike_visitAmbient (ho : o.Alike clear source source' o')
    (h : Interspersed clear (Commented clear source source') before p ns ns')
    (hvisit : ∀ n ∈ ns, ∀ n', Commented clear source source' p.kind n n' → ∀ o o' : Outline,
      o.Alike clear source source' o' → EndsAlike (VisitsTo clear source source')
        (visit strict statement o n) (visit strict statement' o' n')) :
    EndsAlike (VisitsTo clear source source') (visitAmbient strict statement o ns)
      (visitAmbient strict statement' o' ns') := by
  induction h generalizing o o' with
  | nil => exact .ok ⟨ho, .nil, rfl⟩
  | @node _ _ n n' ns ns' hn _ ih =>
    have hrest := fun (o₁ o₁' : Outline) (ho₁ : o₁.Alike clear source source' o₁') => ih ho₁
      fun n hmem => hvisit n (List.mem_cons_of_mem _ hmem)
    have hfirst := hvisit n List.mem_cons_self n' hn o o' ho
    unfold visitAmbient
    rw [hn.kind_eq]
    split
    · generalize visit strict statement o n = v, visit strict statement' o' n' = v' at hfirst
      cases hfirst with
      | fault => exact .fault _ _ _ _ _ _
      | @ok a b hto =>
        obtain ⟨o₁, events, name⟩ := a
        obtain ⟨o₁', events', name'⟩ := b
        obtain ⟨ho₁, hevents, hname⟩ := hto
        obtain rfl : name' = name := hname
        cases name' with
        | some name => exact .ok ⟨ho₁, hevents, rfl⟩
        | none => exact VisitsTo.more (hrest o₁ o₁' ho₁) hevents
    · exact hrest o o' ho
  | @comment _ _ c ns ns' hkind _ _ _ ih =>
    have hnamed : c.kind.named = true := by
      rw [hkind]
      rfl
    rw [visitAmbient, if_pos hnamed, visit_of_comment hkind]
    have hrest := ih ho hvisit
    dsimp only
    generalize visitAmbient strict statement o ns = v,
      visitAmbient strict statement' o' ns' = v' at hrest
    cases hrest with
    | fault => exact .fault _ _ _ _ _ _
    | ok hto => exact .ok hto

/-! #### Exports -/

theorem alike_exportDefault (ho : o.Alike clear source source' o') (name : String) :
    (exportDefault name o).Alike clear source source' (exportDefault name o') := by
  refine { ho with exports := ?_ }
  rw [exportDefault, exportDefault, ho.exports]

/-- An export without a declaration. -/
theorem visitExport_of_none {node : Node} {children : List Node}
    (h : children.find? (·.field == some .declaration) = none) :
    visitExport strict node o children = visitExport strict node o [] := by
  induction children with
  | nil => rfl
  | cons child rest ih =>
    rw [List.find?_cons] at h
    cases hfield : child.field == some .declaration with
    | true => rw [hfield] at h; exact absurd h (by simp)
    | false =>
      rw [hfield] at h
      conv_lhs => rw [visitExport, if_neg (by simpa using hfield)]
      exact ih h

/-- An export with a declaration. -/
theorem visitExport_of_some {node child : Node} {children : List Node}
    (h : children.find? (·.field == some .declaration) = some child) :
    visitExport strict node o children = visitExport strict node o [child] := by
  induction children with
  | nil => exact absurd h (by simp)
  | cons first rest ih =>
    rw [List.find?_cons] at h
    cases hfield : first.field == some .declaration with
    | true =>
      rw [hfield] at h
      obtain rfl := Option.some.inj h
      rw [visitExport, visitExport]
      simp [beq_iff_eq.mp hfield]
    | false =>
      rw [hfield] at h
      conv_lhs => rw [visitExport, if_neg (by simpa using hfield)]
      exact ih h

theorem alike_visitExport (ho : o.Alike clear source source' o')
    (h : Commented clear source source' parent n n') (hkind : n.kind = .exportStatement)
    (hvisit : ∀ c ∈ n.children, ∀ c', Commented clear source source' n.kind c c' →
      EndsAlike (VisitsTo clear source source') (visit strict n o c) (visit strict n' o' c')) :
    EndsAlike (VisitsTo clear source source') (visitExport strict n o n.children)
      (visitExport strict n' o' n'.children) := by
  have hdefault : n'.hasToken "default" = n.hasToken "default" :=
    h.children.any_eq (fun k _ => k == .token "default") rfl
  rcases exists_of_rel (h.child? .declaration) with ⟨hnone, hnone'⟩ | ⟨c, c', hc, hc', hrel⟩
  · rw [visitExport_of_none hnone, visitExport_of_none hnone', visitExport, visitExport, hdefault]
    split
    · rcases exists_of_rel (h.child? .value) with ⟨hno, hno'⟩ | ⟨value, value', hv, hv', hrel⟩
      · rw [hno, hno']
        exact .ok ⟨ho, .nil, rfl⟩
      · rw [hv, hv']
        dsimp only
        rw [hrel.kind_eq]
        split
        · next hname =>
          rw [ho.reads, ho.reads', hrel.text_eq (by simp [Node.isName, hname])]
          exact .ok ⟨alike_exportDefault ho _, .nil, rfl⟩
        · exact .ok ⟨ho, .nil, rfl⟩
    · exact .ok ⟨alike_addExports ho h hkind, .nil, rfl⟩
  · have hrole : c.field = some .declaration := by simpa using List.find?_some hc
    have hdeclared := hvisit c (List.mem_of_find?_eq_some hc) c' hrel
    rw [visitExport_of_some hc, visitExport_of_some hc', visitExport, if_pos hrole, visitExport,
      if_pos (hrel.field_eq.trans hrole), hdefault]
    generalize visit strict n o c = v, visit strict n' o' c' = v' at hdeclared
    cases hdeclared with
    | fault => exact .fault _ _ _ _ _ _
    | @ok a b hto =>
      obtain ⟨o₁, events, name⟩ := a
      obtain ⟨o₁', events', name'⟩ := b
      obtain ⟨ho₁, hevents, hname⟩ := hto
      obtain rfl : name' = name := hname
      cases name' with
      | none => exact .ok ⟨ho₁, hevents, rfl⟩
      | some name =>
        refine .ok ⟨?_, hevents, rfl⟩
        dsimp only
        split
        · exact alike_exportDefault ho₁ name
        · exact ho₁

/-! #### Statements -/

/-- **A visit of a node with comments** ends as before. -/
theorem alike_visit (strict : Bool) (statement statement' : Node)
    (ho : o.Alike clear source source' o')
    (h : Commented clear source source' parent n n') :
    EndsAlike (VisitsTo clear source source') (visit strict statement o n)
      (visit strict statement' o' n') := by
  induction n using Node.induct generalizing parent n' o o' statement statement' with
  | step kind field span children ih =>
    obtain ⟨htext, hchildren⟩ := h
    rename_i span' children'
    have h : Commented clear source source' parent (.mk kind field span children)
      (.mk kind field span' children') := .mk htext hchildren
    unfold visit
    dsimp only
    split
    · exact .ok ⟨alike_addImport ho h rfl, .nil, rfl⟩
    · exact alike_visitExport ho h rfl fun c hc c' hrel => ih c hc _ _ ho hrel
    · exact alike_visitAmbient ho hchildren fun c hc c' hrel o o' ho => ih c hc _ _ ho hrel
    · rw [ho.path, ho.reads, ho.reads']
      rcases exists_of_rel (alike_declaration? h o.path statement statement') with
        ⟨hnone, hnone'⟩ | ⟨d, d', hd, hd', hrel⟩
      · rw [hnone, hnone']
        exact .ok ⟨ho, .nil, rfl⟩
      · rw [hd, hd']
        dsimp only
        have hdeclared := alike_declare strict ho hrel
        generalize declare strict d o = v, declare strict d' o' = v' at hdeclared
        cases hdeclared with
        | fault => exact .fault _ _ _ _ _ _
        | ok hto => exact .ok ⟨hto.1, hto.2, congrArg (fun t => some t.1) hrel.told⟩

/-- **Statements with comments in between** come to like outlines. -/
theorem alike_visitAll (ho : o.Alike clear source source' o')
    (h : Interspersed clear (Commented clear source source') before p ns ns') :
    EndsAlike (ScansTo clear source source') (visitAll strict o (ns.filter (·.kind.named)))
      (visitAll strict o' (ns'.filter (·.kind.named))) := by
  induction h generalizing o o' with
  | nil => exact .ok ⟨ho, .nil⟩
  | @node _ _ n n' ns ns' hn _ ih =>
    rw [List.filter_cons, List.filter_cons, hn.kind_eq]
    split
    · have hfirst := alike_visit strict n n' ho hn
      rw [visitAll, visitAll]
      generalize visit strict n o n = v, visit strict n' o' n' = v' at hfirst
      cases hfirst with
      | fault => exact .fault _ _ _ _ _ _
      | @ok a b hto =>
        obtain ⟨o₁, events, name⟩ := a
        obtain ⟨o₁', events', name'⟩ := b
        have hrest := ih hto.1
        dsimp only
        generalize visitAll strict o₁ (ns.filter (·.kind.named)) = v,
          visitAll strict o₁' (ns'.filter (·.kind.named)) = v' at hrest
        cases hrest with
        | fault => exact .fault _ _ _ _ _ _
        | ok hmore => exact .ok ⟨hmore.1, List.rel_append hto.2.1 hmore.2⟩
    · exact ih ho
  | @comment _ _ c ns ns' hkind _ _ _ ih =>
    have hrest := ih ho
    rw [List.filter_cons_of_pos (by rw [hkind]; rfl), visitAll, visit_of_comment hkind]
    dsimp only
    generalize visitAll strict o (ns.filter (·.kind.named)) = v,
      visitAll strict o' (ns'.filter (·.kind.named)) = v' at hrest
    cases hrest with
    | fault => exact .fault _ _ _ _ _ _
    | ok hto => exact .ok hto

/-- **Scanning a tree with comments** comes to an outline that says the same. -/
theorem alike_ofTree (h : Commented clear source source' parent n n') (strict : Bool)
    (path : String) : EndsAlike (ScansTo clear source source') (ofTree strict path source n)
      (ofTree strict path source' n') :=
  alike_visitAll ⟨rfl, rfl, rfl, .nil, .nil, .nil, rfl, .nil, rfl⟩ h.children

end Outline

end TypeGraft
