import TypeGraft.Proofs.Outline.Alike
import TypeGraft.Syntax.Script.Statements

/-!
# What comments hide

A script is read twice, as it is and with comments put in among the parts of its tree
(`TypeGraft.Syntax.Commented`).

**The outline** says the same, but for what its declarations mention and what its enumerations stand
for (`TypeGraft.Outline.alike_ofTree`).

**The requests** of the macros are left of those that there were. The call of a macro is found
through parentheses, `await` and the first argument of `withDefaults`, and the type that it is
applied to is the first one of the type arguments. A comment at any of these places hides the
request (`TypeGraft.Request.alike_ofTree`).

If all comments are clear of what is picked by its place, nothing is lost
(`TypeGraft.Syntax.Commented.retold`). Comments at these places do hide something
(`TypeGraft.exists_hidden`).
-/

namespace TypeGraft

open Syntax Syntax.Node

variable {clear : Prop} {source source' : Bytes} {parent : Kind} {n n' : Node}

/-! ### Requests -/

namespace Request

variable {macros : List String}

/-- What a request says, apart from where it stands. -/
def told (r : Request) : String × String := (r.name, r.macroName)

/-- Two requests say the same. -/
def Alike (r r' : Request) : Prop := r'.told = r.told

/-- A node with comments, wherever it stands. -/
def Retold (clear : Prop) (source source' : Bytes) (n n' : Node) : Prop :=
  ∃ parent, Commented clear source source' parent n n'

theorem unwrapped?_of_comment {c : Node} (hkind : c.kind = .comment) : unwrapped? c = some c := by
  obtain ⟨kind, field, span, children⟩ := c
  obtain rfl : kind = .comment := hkind
  rfl

/-- **A comment in parentheses** is taken for what stands there, if it is not in the clear. -/
theorem picked_unwrapped? (h : Commented clear source source' parent n n') :
    Picked clear (Retold clear source source') (unwrapped? n) (unwrapped? n') := by
  induction n using Node.induct generalizing parent n' with
  | step kind field span children ih =>
    have hall := h
    obtain ⟨-, hchildren⟩ := h
    rename_i span' children'
    rw [unwrapped?, unwrapped?]
    split
    · next hkind =>
      rw [first?_eq, first?_eq]
      have hpicks : Place.picksFirst ⟨parent, kind, field⟩ = true := by
        rcases hkind with hkind | hkind <;> simp [Place.picksFirst, hkind]
      rcases (hchildren.first hpicks rfl).found_or_hidden with
        ⟨hnone, hnone'⟩ | ⟨c, c', hc, hc', hrel⟩ | ⟨hlost, c, hc, hcomment⟩
      · rw [hnone, hnone']
        exact Or.inl .none
      · rw [hc, hc']
        exact ih c (List.mem_of_find?_eq_some hc) hrel
      · rw [hc]
        exact Or.inr ⟨hlost, c, unwrapped?_of_comment hcomment, hcomment⟩
    · exact Or.inl (.some ⟨parent, hall⟩)

theorem callee?_eq (h : Commented clear source source' parent n n') :
    callee? source' n' = callee? source n := by
  unfold callee?
  rcases exists_of_rel (h.child? .function) with ⟨hnone, hnone'⟩ | ⟨f, f', hf, hf', hrel⟩
  · rw [hnone, hnone']
  · rw [hf, hf']
    dsimp only
    rw [hrel.kind_eq]
    split
    · next hkind => rw [hrel.text_eq (by simp [Node.isName, hkind])]
    · rfl

theorem picked_innerCall? (h : Commented clear source source' parent n n') :
    Picked clear (Retold clear source source') (innerCall? source n) (innerCall? source' n') := by
  unfold innerCall?
  rcases (picked_unwrapped? h).found_or_hidden with
    ⟨hnone, hnone'⟩ | ⟨call, call', hc, hc', place, hrel⟩ | ⟨hlost, c, hc, hcomment⟩
  · rw [hnone, hnone']
    exact Or.inl .none
  · rw [hc, hc', Option.bind_eq_bind, Option.bind_some, Option.bind_some, hrel.kind_eq,
      callee?_eq hrel]
    split
    · next hcall =>
      rcases exists_of_rel (hrel.child? .arguments) with ⟨hnone, hnone'⟩ | ⟨a, a', ha, ha', hargs⟩
      · rw [hnone, hnone']
        exact Or.inl .none
      rw [ha, ha', Option.bind_some, Option.bind_some, Node.namedChildren, Node.namedChildren,
        List.head?_filter, List.head?_filter]
      have hrole : a.field = some .arguments := by simpa using List.find?_some ha
      have hpicks : Place.picksFirst ⟨call.kind, a.kind, a.field⟩ = true := by
        simp [Place.picksFirst, hcall.1, hrole]
      exact (hargs.children.first hpicks rfl).mono fun _ _ hrel => ⟨a.kind, hrel⟩
    · exact Or.inl (.some ⟨place, hrel⟩)
  · rw [hc, Option.bind_eq_bind, Option.bind_some, if_neg (by simp [hcomment])]
    exact Or.inr ⟨hlost, c, rfl, hcomment⟩

/-- The request that a call makes. -/
def ofCall? (macros : List String) (source : Bytes) (call : Node) : Option Request := do
  guard (call.kind = .call)
  let name ← callee? source call
  guard (macros.contains name)
  let arguments ← call.child? .typeArguments
  let argument ← arguments.namedChildren.head?
  guard (argument.kind = .typeIdentifier)
  some ⟨argument.text source, argument.span, name, Outline.lineAt source argument.span.start⟩

theorem ofExpression?_eq (macros : List String) (source : Bytes) (expression : Node) :
    ofExpression? macros source expression =
      (innerCall? source expression).bind (ofCall? macros source) :=
  rfl

theorem ofCall?_of_comment {c : Node} (hkind : c.kind = .comment) :
    ofCall? macros source c = none := by
  rw [ofCall?, hkind]
  rfl

/-- **A comment ahead of the type that a macro is applied to** hides the request. -/
theorem alike_ofCall? (h : Commented clear source source' parent n n') :
    Kept clear Alike (ofCall? macros source n).toList (ofCall? macros source' n').toList := by
  unfold ofCall?
  rw [callee?_eq h, h.kind_eq]
  by_cases hcall : n.kind = .call
  · refine .bind fun _ => .bind fun name => .bind fun _ => ?_
    rcases exists_of_rel (h.child? .typeArguments) with ⟨hnone, hnone'⟩ | ⟨a, a', ha, ha', hargs⟩
    · rw [hnone, hnone']
      exact .nil
    rw [ha, ha', Option.bind_eq_bind, Option.bind_some, Option.bind_some, Node.namedChildren,
      Node.namedChildren, List.head?_filter, List.head?_filter]
    have hrole : a.field = some .typeArguments := by simpa using List.find?_some ha
    have hpicks : Place.picksFirst ⟨n.kind, a.kind, a.field⟩ = true := by
      simp [Place.picksFirst, hcall, hrole]
    rcases (hargs.children.first hpicks rfl).found_or_hidden with
      ⟨hnone, hnone'⟩ | ⟨c, c', hc, hc', hrel⟩ | ⟨hlost, c, hc, hcomment⟩
    · rw [hnone, hnone']
      exact .nil
    · rw [hc, hc', Option.bind_some, Option.bind_some, hrel.kind_eq]
      by_cases hname : c.kind = .typeIdentifier
      · refine .bind fun _ => .cons ?_ .nil
        rw [Alike, told, told, hrel.text_eq (by simp [Node.isName, hname])]
      · simp [hname, guard, Kept.nil]
    · rw [hc, Option.bind_some, hcomment]
      exact .lose hlost _
  · simp [hcall, guard, Kept.nil]

theorem alike_ofExpression? (h : Commented clear source source' parent n n') :
    Kept clear Alike (ofExpression? macros source n).toList
      (ofExpression? macros source' n').toList := by
  rw [ofExpression?_eq, ofExpression?_eq]
  rcases (picked_innerCall? h).found_or_hidden with
    ⟨hnone, hnone'⟩ | ⟨call, call', hc, hc', place, hrel⟩ | ⟨hlost, c, hc, hcomment⟩
  · rw [hnone, hnone']
    exact .nil
  · rw [hc, hc']
    exact alike_ofCall? hrel
  · rw [hc, Option.bind_some, ofCall?_of_comment hcomment]
    exact .lose hlost _

theorem ofExpression?_of_comment {c : Node} (hkind : c.kind = .comment) :
    ofExpression? macros source c = none := by
  rw [ofExpression?_eq, innerCall?, unwrapped?_of_comment hkind, Option.bind_eq_bind,
    Option.bind_some, if_neg (by simp [hkind]), Option.bind_some, ofCall?_of_comment hkind]

theorem alike_of_rel {o o' : Option Node}
    (h : Option.Rel (Commented clear source source' parent) o o') :
    Kept clear Alike (o.bind (ofExpression? macros source)).toList
      (o'.bind (ofExpression? macros source')).toList := by
  cases h with
  | none => exact .nil
  | some hrel => exact alike_ofExpression? hrel

theorem expressions_of_comment {c : Node} (hkind : c.kind = .comment) : expressions c = [] := by
  obtain ⟨kind, field, span, children⟩ := c
  obtain rfl : kind = .comment := hkind
  rfl

/-- **The requests of a statement with comments** are left of those that it made before. -/
theorem alike_expressions (h : Commented clear source source' parent n n') :
    Kept clear Alike ((expressions n).filterMap (ofExpression? macros source))
      ((expressions n').filterMap (ofExpression? macros source')) := by
  induction n using Node.induct generalizing parent n' with
  | step kind field span children ih =>
    obtain ⟨-, hchildren⟩ := h
    rename_i span' children'
    unfold expressions
    split
    · rw [List.filterMap_eq_flatMap_toList, List.filterMap_eq_flatMap_toList]
      refine hchildren.flatMap_named (fun c _ c' hrel => alike_ofExpression? hrel) fun c hkind => ?_
      rw [ofExpression?_of_comment hkind]
      rfl
    · rw [List.filterMap_filterMap, List.filterMap_filterMap, List.filterMap_eq_flatMap_toList,
        List.filterMap_eq_flatMap_toList]
      refine Kept.flatMap (.of_forall₂ (hchildren.filter (fun k _ => k == .declarator) rfl))
        fun declarator _ declarator' hrel => ?_
      exact alike_of_rel (hrel.child? .value)
    · rw [declared_eq, declared_eq, List.filterMap_append, List.filterMap_append]
      refine .append ?_ ?_
      · rcases exists_of_rel (hchildren.find? (fun _ f => f == some .declaration) rfl) with
          ⟨hnone, hnone'⟩ | ⟨c, c', hc, hc', hrel⟩
        · rw [hnone, hnone']
          exact .nil
        · rw [hc, hc']
          exact ih c (List.mem_of_find?_eq_some hc) hrel
      · rw [List.filterMap_eq_flatMap_toList, List.filterMap_eq_flatMap_toList]
        exact (Kept.of_rel (hchildren.find? (fun _ f => f == some .value) rfl)).flatMap
          fun c _ c' hrel => alike_ofExpression? hrel
    · exact .nil

/-- **The requests of a script with comments** are left of those that it made before. -/
theorem alike_ofTree (h : Commented clear source source' parent n n') (macros : List String) :
    Kept clear Alike (ofTree macros source n) (ofTree macros source' n') := by
  rw [ofTree, ofTree, List.filterMap_flatMap, List.filterMap_flatMap]
  refine h.children.flatMap_named (fun stmt _ stmt' hrel => alike_expressions hrel)
    fun c hkind => ?_
  rw [expressions_of_comment hkind]
  rfl

end Request

/-! ### A script with comments -/

/-- **Comments hide, and change little else.** When comments are put in anywhere, a script declares,
imports and exports what it did before, with the same bases, but some mentions may be gone, and some
requests, and an enumeration may stand for other types. If all comments are clear of what is picked
by its place, these are the same too. -/
theorem Syntax.Commented.retold {tree tree' : Node}
    (h : Commented clear source source' parent tree tree') (strict : Bool) (path : String)
    (macros : List String) :
    EndsAlike (Outline.ScansTo clear source source') (Outline.ofTree strict path source tree)
        (Outline.ofTree strict path source' tree') ∧
      ((Request.ofTree macros source' tree').map Request.told).Sublist
        ((Request.ofTree macros source tree).map Request.told) ∧
      (clear → (Request.ofTree macros source' tree').map Request.told =
        (Request.ofTree macros source tree).map Request.told) := by
  have hrequests := Request.alike_ofTree h macros
  refine ⟨Outline.alike_ofTree h strict path, ?_, fun hclear => ?_⟩
  · exact hrequests.sublist fun _ _ hr => hr
  · exact hrequests.map_eq hclear fun _ _ hr => hr

/-- A script without comments. -/
def uncommented : Bytes := Bytes.ofString
  "interface P extends B<Q> \x7b a: Foo[] \x7d\nenum E \x7b X = ('x') \x7d\ndefineProps<P>()\n"

/-- The script with comments that are clear of what is picked by its place. -/
def commentedBehind : Bytes := Bytes.ofString
  ("interface P extends B</* 1 */ Q> \x7b // 2\n a /* 3 */: Foo /* 4 */ [] \x7d\n" ++
    "enum E \x7b X = ('x' /* 5 */) \x7d\ndefineProps<P /* 6 */>()\n")

/-- The script with comments ahead of the type of a property, of a value in parentheses and of what
a macro is applied to. -/
def commentedAhead : Bytes := Bytes.ofString
  ("interface P extends B<Q> \x7b a: /* 1 */ Foo[] \x7d\nenum E \x7b X = (/* 2 */ 'x') \x7d\n" ++
    "defineProps</* 3 */ P>()\n")

/-- Two scripts whose trees are as they should be. -/
theorem exists_trees {p : Node → Node → Prop} [∀ tree tree', Decidable (p tree tree')]
    (h : (Script.parse .plain source).any (fun tree =>
      (Script.parse .plain source').any fun tree' => decide (p tree tree')) = true) :
    ∃ tree tree', Script.parse .plain source = some tree ∧
      Script.parse .plain source' = some tree' ∧ p tree tree' := by
  obtain ⟨tree, htree, h⟩ := (Option.any_eq_true _ _).mp h
  obtain ⟨tree', htree', h⟩ := (Option.any_eq_true _ _).mp h
  exact ⟨tree, tree', htree, htree', of_decide_eq_true h⟩

set_option maxRecDepth 100000 in
/-- Six comments behind what is picked leave all as it is. -/
theorem retold_commentedBehind : ∃ tree tree',
    Script.parse .plain uncommented = some tree ∧
    Script.parse .plain commentedBehind = some tree' ∧
    Commented True uncommented commentedBehind .program tree tree' ∧
    EndsAlike (Outline.ScansTo True uncommented commentedBehind)
      (Outline.ofTree false "/w/a.ts" uncommented tree)
      (Outline.ofTree false "/w/a.ts" commentedBehind tree') ∧
    (Request.ofTree ["defineProps"] commentedBehind tree').map Request.told =
      [("P", "defineProps")] := by
  obtain ⟨tree, tree', htree, htree', hcommented, hrequests⟩ : ∃ tree tree',
      Script.parse .plain uncommented = some tree ∧
      Script.parse .plain commentedBehind = some tree' ∧
      Commented True uncommented commentedBehind .program tree tree' ∧
      (Request.ofTree ["defineProps"] uncommented tree).map Request.told =
        [("P", "defineProps")] := by
    refine exists_trees ?_
    decide +kernel
  obtain ⟨houtlines, -, hsame⟩ := hcommented.retold false "/w/a.ts" ["defineProps"]
  exact ⟨tree, tree', htree, htree', hcommented, houtlines, (hsame trivial).trans hrequests⟩

/-- The declaration of a name in a script. -/
def Outline.declared? (source : Bytes) (tree : Node) (name : String) : Option Declaration :=
  (ofTree false "/w/a.ts" source tree).toOption.bind fun r => r.1.declarations.get? name

/-- What the interface of such a script mentions, what its enumeration stands for, and what is
requested. -/
structure Outline.Summary where
  mentions : Option (List (String × MentionKind × Bool))
  values : Option Bytes
  requests : List (String × String)
deriving DecidableEq

/-- The summary of a script. -/
def Outline.summary (source : Bytes) (tree : Node) : Outline.Summary where
  mentions := (declared? source tree "P").map fun d => (d.mentions source).map Mention.told
  values := (declared? source tree "E").map (·.content)
  requests := (Request.ofTree ["defineProps"] source tree).map Request.told

set_option maxRecDepth 100000 in
/-- **Comments do hide something**: one hides what the type of a property mentions, one changes what
types an enumeration stands for, and one hides a request. -/
theorem exists_hidden : ∃ tree tree',
    Script.parse .plain uncommented = some tree ∧
    Script.parse .plain commentedAhead = some tree' ∧
    Commented False uncommented commentedAhead .program tree tree' ∧
    Outline.summary uncommented tree =
      ⟨some [("B", .extends_, false), ("Q", .member, false), ("Foo", .property, false)],
        some (Bytes.ofString "string"), [("P", "defineProps")]⟩ ∧
    Outline.summary commentedAhead tree' =
      ⟨some [("B", .extends_, false), ("Q", .member, false)],
        some (Bytes.ofString "number | string"), []⟩ := by
  refine exists_trees ?_
  decide +kernel

end TypeGraft
