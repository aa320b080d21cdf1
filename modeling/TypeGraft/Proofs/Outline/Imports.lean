import TypeGraft.Proofs.Outline.Openings

/-!
# What an import statement says

An outline lists the import statements of a script in the order in which they stand there, each read
off its own (`TypeGraft.Outline.imports_ofTree`). Whatever it takes to write a statement anew is
copied: the name of the module in its quotes, whether types alone are imported, whether there is a
semicolon, and all that the statement brings in (`TypeGraft.Import.ReadFrom`).
-/

namespace TypeGraft

namespace Syntax.Node

/-- The parts of the clause of an import statement that are of one kind. -/
def importParts (node : Node) (kind : Kind) : List Node :=
  (((node.childOfKind? .importClause).map namedChildren).getD []).filter (·.kind == kind)

/-- The names in the braces of an import statement. -/
def importSpecifiers (node : Node) : List Node :=
  (node.importParts .namedImports).flatMap fun list =>
    list.namedChildren.filter (·.kind == .importSpecifier)

/-- What a name in braces goes by in its file. -/
def localName (source : Bytes) (entry : Node) : String :=
  ((entry.child? .alias).map (·.text source)).getD
    (Outline.unquoted (((entry.child? .name).map (·.text source)).getD ""))

/-- Whether a node is a statement that imports from a module. -/
def importsFrom (node : Node) : Bool :=
  node.kind == .importStatement && (node.child? .source).isSome

end Syntax.Node

open Syntax Syntax.Node

/-- **An import statement as it is read off a node.** -/
structure Import.ReadFrom (source : Bytes) (i : Import) (node : Node) : Prop where
  span : i.span = node.span
  long : i.span.start < i.span.stop
  quotedModule : (node.child? .source).map (·.text source) = some i.quotedModule
  typeOnly : i.typeOnly = node.hasToken "type"
  terminated : i.terminated = (node.children.getLast?.map (·.kind == .token ";")).getD false
  default : i.default.map (·.name) = (node.importParts .identifier).getLast?.map (·.text source)
  wholeModule : i.wholeModule = (node.importParts .namespaceImport).getLast?.map (·.text source)
  /-- The names in braces are listed in the order in which they stand there, each with its text. -/
  named : i.named.map (fun n => (n.1.name, n.2)) =
    node.importSpecifiers.map fun entry => (entry.localName source, entry.text source)

namespace Outline

variable {source : Bytes} {path specifier : String} {strict : Bool} {node : Node}
  {i : Import} {o o' : Outline} {events : List Event} {name : Option String}

/-! ### One statement -/

/-- **What the parts of an import clause add up to**: of two of a kind the last one counts, but
names in braces are put one behind the other. -/
theorem foldl_addPart (source : Bytes) (specifier : String) (parts : List Node) (i : Import) :
    ∃ default wholeModule, parts.foldl (addPart source specifier) i = { i with
        default, wholeModule, named := i.named ++
          (parts.filter (·.kind == .namedImports)).flatMap (namedBindings source specifier) } ∧
      default.map (·.name) = ((parts.filter (·.kind == .identifier)).getLast?.map
        (·.text source)).or (i.default.map (·.name)) ∧
      wholeModule = ((parts.filter (·.kind == .namespaceImport)).getLast?.map
        (·.text source)).or i.wholeModule := by
  induction parts generalizing i with
  | nil => exact ⟨i.default, i.wholeModule, by simp, by simp, by simp⟩
  | cons part parts ih =>
    obtain ⟨default, wholeModule, heq, hdefault, hwhole⟩ := ih (addPart source specifier i part)
    refine ⟨default, wholeModule, ?_, ?_, ?_⟩
    · rw [List.foldl_cons, heq, addPart]
      split <;> simp_all
    · rw [hdefault, addPart]
      split
      · next hkind =>
        rw [List.filter_cons_of_pos (by simp [hkind]), List.getLast?_cons]
        cases (parts.filter (·.kind == .identifier)).getLast? <;> rfl
      all_goals rw [List.filter_cons_of_neg (by simp_all)]
    · rw [hwhole, addPart]
      split
      · next hkind => rw [List.filter_cons_of_neg (by simp [hkind])]
      · next hkind =>
        rw [List.filter_cons_of_pos (by simp [hkind]), List.getLast?_cons]
        cases (parts.filter (·.kind == .namespaceImport)).getLast? <;> rfl
      all_goals rw [List.filter_cons_of_neg (by simp_all)]

/-- An import statement starts with its word. -/
theorem start_lt_stop_of_import (hwell : node.WellFormed source) (hopened : node.Opened source)
    (hkind : node.kind = .importStatement) : node.span.start < node.span.stop := by
  have hopening : node.kind.opening? = some "import" := by
    rw [hkind]
    rfl
  obtain ⟨first, rest, hbegins⟩ := hopened.begins hopening
  have hfirst := (hwell.child (hbegins.children ▸ List.mem_cons_self)).inside
  have hlength : first.span.stop = node.span.start + 6 := hbegins.length hwell
  have hstop := hfirst.2.2
  omega

/-- **What an import statement adds** to an outline is read off it. -/
theorem importList_addImport (hwell : node.WellFormed o.source) (hopened : node.Opened o.source)
    (hkind : node.kind = .importStatement) :
    ∃ added, (addImport node o).importList = o.importList ++ added ∧
      List.Forall₂ (Import.ReadFrom o.source) added ([node].filter importsFrom) := by
  unfold addImport
  split
  · next hfrom =>
    refine ⟨[], by simp, ?_⟩
    rw [List.filter_cons_of_neg (by simp [importsFrom, hfrom])]
    exact .nil
  · next from_ hfrom =>
    obtain ⟨default, wholeModule, heq, hdefault, hwhole⟩ := foldl_addPart o.source
      (unquoted (from_.text o.source))
      (((node.childOfKind? .importClause).map Node.namedChildren).getD []) _
    refine ⟨_, rfl, ?_⟩
    rw [List.filter_cons_of_pos (by simp [importsFrom, hfrom, hkind]), heq]
    refine .cons ⟨rfl, start_lt_stop_of_import hwell hopened hkind, ?_, rfl, rfl, ?_, ?_, ?_⟩ .nil
    · rw [hfrom]
      rfl
    · rw [hdefault]
      exact Option.or_none
    · rw [hwhole]
      exact Option.or_none
    · rw [List.nil_append, List.map_flatMap, importSpecifiers, List.map_flatMap]
      refine congrArg (List.flatMap · _) (funext fun list => ?_)
      rw [namedBindings, List.map_map]
      rfl

/-! ### All statements -/

/-- A statement that is no import adds none. -/
theorem importList_visit (hnode : node.WellFormed o.source) (hkind : node.kind ≠ .importStatement)
    (h : visit strict node o node = .ok (o', events, name)) : o'.importList = o.importList := by
  cases visited_of_visit h with
  | imports himport => exact absurd himport hkind
  | exports hexport hparts =>
    rcases gives_visitExport hnode hexport node.children (fun _ h => h) hparts with ⟨-, hi⟩ |
      ⟨-, -, -, -, -, -, -, hi⟩
    · exact hi
    · exact hi
  | ambient hambient =>
    obtain ⟨hadds, -⟩ := adds_visit hnode _ hnode.self ⟨hkind, by simp [hambient]⟩ h
    cases hadds with
    | nothing _ hi => exact hi
    | declaration _ _ _ _ hi => exact hi
  | nothing => rfl
  | declares d hd hdeclare => exact (declarations_of_declare hdeclare).2

/-- **What one statement adds** to the imports. -/
theorem readFrom_visit (hwell : node.WellFormed o.source) (hopened : node.Opened o.source)
    (h : visit strict node o node = .ok (o', events, name)) :
    ∃ added, o'.importList = o.importList ++ added ∧
      List.Forall₂ (Import.ReadFrom o.source) added ([node].filter importsFrom) := by
  by_cases himport : node.kind = .importStatement
  · have ho' : o' = addImport node o := by
      obtain ⟨kind, field, span, children⟩ := node
      obtain rfl : kind = .importStatement := himport
      unfold visit at h
      exact (Prod.mk.inj (Except.ok.inj h)).1.symm
    rw [ho']
    exact importList_addImport hwell hopened himport
  · refine ⟨[], ?_, ?_⟩
    · rw [List.append_nil]
      exact importList_visit hwell himport h
    · rw [List.filter_cons_of_neg (by simp [importsFrom, himport])]
      exact .nil

theorem readFrom_visitAll {nodes : List Node} (hwell : ∀ n ∈ nodes, n.WellFormed o.source)
    (hopened : ∀ n ∈ nodes, n.Opened o.source)
    (h : visitAll strict o nodes = .ok (o', events)) :
    ∃ added, o'.importList = o.importList ++ added ∧
      List.Forall₂ (Import.ReadFrom o.source) added (nodes.filter importsFrom) := by
  induction nodes generalizing o events with
  | nil =>
    obtain ⟨rfl, -⟩ := Prod.mk.inj (Except.ok.inj h)
    exact ⟨[], by simp, .nil⟩
  | cons node rest ih =>
    obtain ⟨o₁, firstEvents, name₁, more, hvisit, hmore, -⟩ := exists_of_visitAll_cons h
    have hsource : o₁.source = o.source := (grows_visit node hvisit).source
    obtain ⟨first, hfirst, hread⟩ := readFrom_visit (hwell node List.mem_cons_self)
      (hopened node List.mem_cons_self) hvisit
    obtain ⟨added, hadded, hreads⟩ := ih
      (fun n hn => hsource ▸ hwell n (List.mem_cons_of_mem _ hn))
      (fun n hn => hsource ▸ hopened n (List.mem_cons_of_mem _ hn)) hmore
    refine ⟨first ++ added, ?_, ?_⟩
    · rw [hadded, hfirst, List.append_assoc]
    · rw [← List.singleton_append, List.filter_append]
      exact List.rel_append hread (hsource ▸ hreads)

/-- **The import statements of a script** are those that an outline lists. -/
theorem imports_ofTree {dialect : Syntax.Script.Dialect} {tree : Node}
    (htree : Script.tree dialect path source = .ok tree)
    (h : ofTree strict path source tree = .ok (o, events)) :
    List.Forall₂ (Import.ReadFrom source) o.importList (tree.namedChildren.filter importsFrom) := by
  have hwell := (Script.isScript_of_tree htree).wellFormed
  have hopened := Script.opened_of_tree htree
  obtain ⟨added, hadded, hreads⟩ := readFrom_visitAll (o := empty path source)
    (fun n hn => (hwell.namedChild hn).wellFormed)
    (fun n hn => hopened.child (List.mem_of_mem_filter hn)) h
  rw [hadded]
  exact hreads

end Outline

end TypeGraft
