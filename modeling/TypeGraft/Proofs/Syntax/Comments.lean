import Mathlib.Data.List.Forall2
import TypeGraft.Outline.Scan
import TypeGraft.Proofs.Syntax.Layout

/-!
# Comments among the parts of a tree

A tree may get comments put in among the parts of any of its nodes
(`TypeGraft.Syntax.Commented`). The spans move, and with them the text of a node that gets a comment
may change, but a name is spelled as before.

**What is picked by its role or its kind** is found again: no comment has a role. But some parts are
picked by their place, as the first or the last one of a node
(`TypeGraft.Syntax.Place.picksFirst`). A comment there is picked instead, and hides what was picked
before. A comment is clear of such parts if it stands behind the first one and ahead of the last one
(`TypeGraft.Syntax.Place.Clear`).

So what is read off a tree with comments is left of what was read off before
(`TypeGraft.Kept`), and nothing is lost if all comments are clear.
-/

namespace TypeGraft

/-! ### What is left of a list -/

/-- **What is left of a list** when some of it is lost. In the clear nothing is. -/
inductive Kept {α β : Type} (clear : Prop) (R : α → β → Prop) : List α → List β → Prop where
  | nil : Kept clear R [] []
  | cons {a : α} {b : β} {l : List α} {l' : List β} :
      R a b → Kept clear R l l' → Kept clear R (a :: l) (b :: l')
  | lost {a : α} {l : List α} {l' : List β} :
      ¬clear → Kept clear R l l' → Kept clear R (a :: l) l'

namespace Kept

variable {α β γ δ : Type} {clear : Prop} {R : α → β → Prop} {S : γ → δ → Prop} {l m : List α}
  {l' m' : List β}

theorem of_rel {o : Option α} {o' : Option β} (h : Option.Rel R o o') :
    Kept clear R o.toList o'.toList := by
  cases h with
  | none => exact .nil
  | some hab => exact .cons hab .nil

theorem append (h : Kept clear R l l') (h' : Kept clear R m m') :
    Kept clear R (l ++ m) (l' ++ m') := by
  induction h with
  | nil => exact h'
  | cons hab _ ih => exact .cons hab ih
  | lost hlost _ ih => exact .lost hlost ih

theorem lose (hlost : ¬clear) (l : List α) : Kept clear R l [] := by
  induction l with
  | nil => exact .nil
  | cons a l ih => exact .lost hlost ih

theorem of_forall₂ (h : List.Forall₂ R l l') : Kept clear R l l' := by
  induction h with
  | nil => exact .nil
  | cons hab _ ih => exact .cons hab ih

theorem flatMap (h : Kept clear R l l') {f : α → List γ} {g : β → List δ}
    (hf : ∀ a ∈ l, ∀ b, R a b → Kept clear S (f a) (g b)) :
    Kept clear S (l.flatMap f) (l'.flatMap g) := by
  induction h with
  | nil => exact .nil
  | cons hab _ ih =>
    exact (hf _ List.mem_cons_self _ hab).append (ih fun a ha => hf a (List.mem_cons_of_mem _ ha))
  | lost hlost _ ih =>
    exact (lose hlost _).append (ih fun a ha => hf a (List.mem_cons_of_mem _ ha))

theorem filter (h : Kept clear R l l') {p : α → Bool} {q : β → Bool}
    (hpq : ∀ a b, R a b → q b = p a) : Kept clear R (l.filter p) (l'.filter q) := by
  induction h with
  | nil => exact .nil
  | @cons a b _ _ hab _ ih =>
    rw [List.filter_cons, List.filter_cons, hpq a b hab]
    split
    · exact .cons hab ih
    · exact ih
  | lost hlost _ ih =>
    rw [List.filter_cons]
    split
    · exact .lost hlost ih
    · exact ih

/-- What is the same is done next. -/
theorem bind {ε : Type} {o : Option ε} {f : ε → Option α} {g : ε → Option β}
    (h : ∀ a, Kept clear R (f a).toList (g a).toList) :
    Kept clear R (o.bind f).toList (o.bind g).toList := by
  cases o with
  | none => exact .nil
  | some a => exact h a

/-- What is told of the things that are left was told of them before, in the same order. -/
theorem sublist (h : Kept clear R l l') {f : α → γ} {g : β → γ} (hfg : ∀ a b, R a b → g b = f a) :
    (l'.map g).Sublist (l.map f) := by
  induction h with
  | nil => exact .slnil
  | @cons a b _ _ hab _ ih =>
    rw [List.map_cons, List.map_cons, hfg a b hab]
    exact ih.cons_cons _
  | lost _ _ ih => exact ih.cons _

theorem map_eq (h : Kept clear R l l') (hclear : clear) {f : α → γ} {g : β → γ}
    (hfg : ∀ a b, R a b → g b = f a) : l'.map g = l.map f := by
  induction h with
  | nil => rfl
  | @cons a b _ _ hab _ ih => rw [List.map_cons, List.map_cons, hfg a b hab, ih]
  | lost hlost => exact absurd hclear hlost

theorem of_map_eq {f : α → γ} {g : β → γ} (h : l'.map g = l.map f) :
    Kept clear (fun a b => g b = f a) l l' := by
  induction l generalizing l' with
  | nil =>
    obtain rfl := List.map_eq_nil_iff.mp h
    exact .nil
  | cons a l ih =>
    obtain ⟨b, l', rfl, hb, hl⟩ := List.map_eq_cons_iff.mp h
    exact .cons hb (ih hl)

theorem eq {l l' : List α} (h : Kept clear (fun a b => b = a) l l') (hclear : clear) : l' = l := by
  have hmap := h.map_eq hclear (f := id) (g := id) fun _ _ heq => heq
  rwa [List.map_id, List.map_id] at hmap

end Kept

theorem exists_of_rel {α β : Type} {R : α → β → Prop} {o : Option α} {o' : Option β}
    (h : Option.Rel R o o') :
    o = none ∧ o' = none ∨ ∃ a b, o = some a ∧ o' = some b ∧ R a b := by
  cases h with
  | none => exact Or.inl ⟨rfl, rfl⟩
  | some hab => exact Or.inr ⟨_, _, rfl, rfl, hab⟩

namespace Syntax

/-! ### Putting in comments -/

/-- Where a node stands: the kind of what it is part of, its own kind, and its role. -/
structure Place where
  parent : Kind
  kind : Kind
  field : Option Field
deriving DecidableEq

namespace Place

/-- Whether the first part that is no token is picked, whatever it is. -/
def picksFirst (p : Place) : Bool :=
  [.await, .parenthesized, .ascription].contains p.kind ||
    p.parent == .call && [some .arguments, some .typeArguments].contains p.field

/-- **A comment is not picked**: it is put in between these parts of a node. -/
structure Clear (p : Place) (before after : List Node) : Prop where
  first : p.picksFirst = true → before.any (·.kind.named) = true
  /-- The last part shows the kind of a number with an operator. -/
  last : p.kind = .unary → after.any (·.kind.named) = true
  /-- The last token shows whether an import ends in a semicolon. -/
  final : p.kind = .importStatement → after ≠ []

end Place

/-- **Comments among some nodes**: each node is changed as a relation allows, and there are comments
in between. -/
inductive Interspersed (clear : Prop) (R : Kind → Node → Node → Prop) :
    List Node → Place → List Node → List Node → Prop where
  | nil {before : List Node} {p : Place} : Interspersed clear R before p [] []
  | node {before : List Node} {p : Place} {n n' : Node} {ns ns' : List Node} :
      R p.kind n n' → Interspersed clear R (before ++ [n]) p ns ns' →
      Interspersed clear R before p (n :: ns) (n' :: ns')
  | comment {before : List Node} {p : Place} {c : Node} {ns ns' : List Node} :
      c.kind = .comment → c.field = none → (clear → p.Clear before ns) →
      Interspersed clear R before p ns ns' → Interspersed clear R before p ns (c :: ns')

/-- The nodes whose parts in a role are names. -/
def Kind.holdsNames : Kind → Bool
  | .typeAlias | .interface | .enumeration | .typeParameter | .genericType | .importStatement
  | .exportStatement | .importSpecifier | .exportSpecifier => true
  | _ => false

/-- Whether the text of a node is read as a name. -/
def Node.isName (parent : Kind) (node : Node) : Bool :=
  [.identifier, .typeIdentifier, .qualifiedType].contains node.kind ||
    parent.holdsNames && [some .name, some .alias, some .source].contains node.field ||
    node.kind == .genericType && (node.child? .name).isNone

/-- **A tree with comments put in** among the parts of its nodes, where `clear` says that they are
clear of what is picked by its place. Names are spelled as before. -/
inductive Commented (clear : Prop) (source source' : Bytes) : Kind → Node → Node → Prop where
  | mk {parent kind : Kind} {field : Option Field} {span span' : Span}
      {children children' : List Node} :
      ((Node.mk kind field span children).isName parent = true →
        (Node.mk kind field span' children').text source' =
          (Node.mk kind field span children).text source) →
      Interspersed clear (Commented clear source source') [] ⟨parent, kind, field⟩ children
        children' →
      Commented clear source source' parent (.mk kind field span children)
        (.mk kind field span' children')

variable {clear : Prop} {source source' : Bytes} {parent : Kind} {n n' : Node} {p : Place}
  {before ns ns' : List Node}

/-! ### Nodes -/

mutual

/-- **All nodes of a tree have a property** if a node has it whose parts do. -/
theorem Node.induct {motive : Node → Prop} (step : ∀ kind field span children,
    (∀ c ∈ children, motive c) → motive (.mk kind field span children)) :
    (node : Node) → motive node
  | .mk kind field span children =>
    step kind field span children (Node.induct_each step children)

theorem Node.induct_each {motive : Node → Prop} (step : ∀ kind field span children,
    (∀ c ∈ children, motive c) → motive (.mk kind field span children)) :
    (nodes : List Node) → ∀ node ∈ nodes, motive node
  | [] => fun _ h => absurd h List.not_mem_nil
  | node :: rest => List.forall_mem_cons.mpr ⟨Node.induct step node, Node.induct_each step rest⟩

end

namespace Commented

theorem kind_eq (h : Commented clear source source' parent n n') : n'.kind = n.kind := by
  cases h
  rfl

theorem field_eq (h : Commented clear source source' parent n n') : n'.field = n.field := by
  cases h
  rfl

theorem text_eq (h : Commented clear source source' parent n n') (hname : n.isName parent = true) :
    n'.text source' = n.text source := by
  cases h with
  | mk htext => exact htext hname

theorem children (h : Commented clear source source' parent n n') :
    Interspersed clear (Commented clear source source') [] ⟨parent, n.kind, n.field⟩ n.children
      n'.children := by
  cases h with
  | mk _ hchildren => exact hchildren

end Commented

/-! ### What is found again -/

namespace Interspersed

/-- What a comment is not, by its kind and its role. -/
theorem filter (h : Interspersed clear (Commented clear source source') before p ns ns')
    (f : Kind → Option Field → Bool) (hcomment : f .comment none = false) :
    List.Forall₂ (Commented clear source source' p.kind)
      (ns.filter fun n => f n.kind n.field) (ns'.filter fun n => f n.kind n.field) := by
  induction h with
  | nil => exact .nil
  | node hn _ ih =>
    rw [List.filter_cons, List.filter_cons, hn.kind_eq, hn.field_eq]
    split
    · exact .cons hn ih
    · exact ih
  | comment hkind hfield _ _ ih =>
    rw [List.filter_cons_of_neg (by simp [hkind, hfield, hcomment])]
    exact ih

theorem find? (h : Interspersed clear (Commented clear source source') before p ns ns')
    (f : Kind → Option Field → Bool) (hcomment : f .comment none = false) :
    Option.Rel (Commented clear source source' p.kind)
      (ns.find? fun n => f n.kind n.field) (ns'.find? fun n => f n.kind n.field) := by
  rw [← List.head?_filter, ← List.head?_filter]
  have hfilter := h.filter f hcomment
  revert hfilter
  generalize ns.filter (fun n => f n.kind n.field) = l, ns'.filter (fun n => f n.kind n.field) = l'
  rintro (_ | ⟨hn, -⟩)
  · exact .none
  · exact .some hn

theorem any_eq (h : Interspersed clear (Commented clear source source') before p ns ns')
    (f : Kind → Option Field → Bool) (hcomment : f .comment none = false) :
    (ns'.any fun n => f n.kind n.field) = ns.any fun n => f n.kind n.field := by
  induction h with
  | nil => rfl
  | node hn _ ih => rw [List.any_cons, List.any_cons, hn.kind_eq, hn.field_eq, ih]
  | comment hkind hfield _ _ ih => rw [List.any_cons, hkind, hfield, hcomment, Bool.false_or, ih]

/-- **What is read off the nodes that are no tokens**, where nothing is read off a comment. -/
theorem flatMap_named {α β : Type} {strict : Prop} {S : α → β → Prop} {f : Node → List α}
    {g : Node → List β} (h : Interspersed clear (Commented clear source source') before p ns ns')
    (hnode : ∀ n ∈ ns, ∀ n', Commented clear source source' p.kind n n' →
      Kept strict S (f n) (g n'))
    (hcomment : ∀ c : Node, c.kind = .comment → g c = []) :
    Kept strict S ((ns.filter (·.kind.named)).flatMap f)
      ((ns'.filter (·.kind.named)).flatMap g) := by
  induction h with
  | nil => exact .nil
  | node hn _ ih =>
    have hrest := ih fun n hmem => hnode n (List.mem_cons_of_mem _ hmem)
    rw [List.filter_cons, List.filter_cons, hn.kind_eq]
    split
    · exact (hnode _ List.mem_cons_self _ hn).append hrest
    · exact hrest
  | comment hkind _ _ _ ih =>
    rw [List.filter_cons_of_pos (by rw [hkind]; rfl), List.flatMap_cons, hcomment _ hkind]
    exact ih hnode

/-- **What the nodes add up to that are no tokens**, where a comment adds nothing. -/
theorem foldl_named {α β : Type} {S : α → β → Prop} {f : α → Node → α} {g : β → Node → β} {a : α}
    {b : β} (h : Interspersed clear (Commented clear source source') before p ns ns') (hab : S a b)
    (hnode : ∀ n n', Commented clear source source' p.kind n n' → ∀ a b, S a b → S (f a n) (g b n'))
    (hcomment : ∀ c : Node, c.kind = .comment → ∀ b, g b c = b) :
    S ((ns.filter (·.kind.named)).foldl f a) ((ns'.filter (·.kind.named)).foldl g b) := by
  induction h generalizing a b with
  | nil => exact hab
  | node hn _ ih =>
    rw [List.filter_cons, List.filter_cons, hn.kind_eq]
    split
    · exact ih (hnode _ _ hn a b hab) hnode
    · exact ih hab hnode
  | comment hkind _ _ _ ih =>
    rw [List.filter_cons_of_pos (by rw [hkind]; rfl), List.foldl_cons, hcomment _ hkind]
    exact ih hab hnode

end Interspersed

/-! ### What is picked by its place -/

/-- **What is picked** is what was picked before, or a comment that is not in the clear. -/
def Picked (clear : Prop) (R : Node → Node → Prop) (o o' : Option Node) : Prop :=
  Option.Rel R o o' ∨ ¬clear ∧ ∃ c, o' = some c ∧ c.kind = .comment

theorem Picked.found_or_hidden {R : Node → Node → Prop} {o o' : Option Node}
    (h : Picked clear R o o') :
    (o = none ∧ o' = none) ∨ (∃ n n', o = some n ∧ o' = some n' ∧ R n n') ∨
      ¬clear ∧ ∃ c, o' = some c ∧ c.kind = .comment := by
  rcases h with hrel | hhidden
  · exact (exists_of_rel hrel).imp_right Or.inl
  · exact Or.inr (Or.inr hhidden)

theorem Picked.mono {R S : Node → Node → Prop} {o o' : Option Node} (h : Picked clear R o o')
    (hRS : ∀ n n', R n n' → S n n') : Picked clear S o o' := by
  refine h.imp_left fun hrel => ?_
  cases hrel with
  | none => exact .none
  | some hn => exact .some (hRS _ _ hn)

theorem Picked.getD {R : Node → Node → Prop} {o o' : Option Node} (h : Picked clear R o o')
    (hn : R n n') : Picked clear R (some (o.getD n)) (some (o'.getD n')) := by
  rcases h with hrel | ⟨hlost, c, rfl, hkind⟩
  · cases hrel with
    | none => exact Or.inl (.some hn)
    | some h => exact Or.inl (.some h)
  · exact Or.inr ⟨hlost, c, rfl, hkind⟩

namespace Interspersed

/-- The first node that is no token. -/
theorem first (h : Interspersed clear (Commented clear source source') before p ns ns')
    (hp : p.picksFirst = true) (hbefore : before.any (·.kind.named) = false) :
    Picked clear (Commented clear source source' p.kind) (ns.find? (·.kind.named))
      (ns'.find? (·.kind.named)) := by
  induction h with
  | nil => exact Or.inl .none
  | @node _ _ n n' _ _ hn _ ih =>
    rw [List.find?_cons, List.find?_cons, hn.kind_eq]
    cases hnamed : n.kind.named with
    | true => exact Or.inl (.some hn)
    | false => exact ih hp (by simp [hbefore, hnamed])
  | @comment _ _ c _ _ hkind _ hclear =>
    rw [List.find?_cons, hkind]
    refine Or.inr ⟨fun h => ?_, c, rfl, hkind⟩
    rw [(hclear h).first hp] at hbefore
    exact absurd hbefore (by simp)

/-- The last of the nodes that are looked at, comments among them. -/
theorem last (h : Interspersed clear (Commented clear source source') before p ns ns')
    (f : Kind → Bool) (hcomment : f .comment = true)
    (hclear : ∀ before after, p.Clear before after → after.any (fun n => f n.kind) = true) :
    Picked clear (Commented clear source source' p.kind) (ns.filter fun n => f n.kind).getLast?
      (ns'.filter fun n => f n.kind).getLast? := by
  induction h with
  | nil => exact Or.inl .none
  | @node _ _ n n' ns ns' hn _ ih =>
    rw [List.filter_cons, List.filter_cons, hn.kind_eq]
    split
    · rw [List.getLast?_cons, List.getLast?_cons]
      exact (ih hclear).getD hn
    · exact ih hclear
  | @comment _ _ c ns ns' hkind _ hspot _ ih =>
    rw [List.filter_cons_of_pos (by rw [hkind, hcomment]), List.getLast?_cons]
    have hlast := ih hclear
    cases hnone : (ns'.filter fun n => f n.kind).getLast? with
    | some n' =>
      rw [hnone] at hlast
      exact hlast
    | none =>
      -- a comment in the clear has something behind it
      refine Or.inr ⟨fun h => ?_, c, rfl, hkind⟩
      obtain ⟨n, hn, hf⟩ := List.any_eq_true.mp (hclear _ _ (hspot h))
      have hempty : (ns.filter fun n => f n.kind).getLast? = none := by
        rcases hlast with hrel | ⟨hlost, -⟩
        · rw [hnone] at hrel
          generalize (ns.filter fun n => f n.kind).getLast? = o at hrel
          cases hrel
          rfl
        · exact absurd h hlost
      exact List.filter_eq_nil_iff.mp (List.getLast?_eq_none_iff.mp hempty) n hn hf

end Interspersed

/-! ### Names in types -/

theorem Node.typeNames_of_comment {c : Node} (hkind : c.kind = .comment) : c.typeNames = [] := by
  obtain ⟨kind, field, span, children⟩ := c
  obtain rfl : kind = .comment := hkind
  rfl

namespace Commented

/-- The first part in a role. -/
theorem child? (h : Commented clear source source' parent n n') (field : Field) :
    Option.Rel (Commented clear source source' n.kind) (n.child? field) (n'.child? field) :=
  h.children.find? (fun _ f => f == some field) rfl

/-- The name in a role is spelled as before. -/
theorem text_child?_eq (h : Commented clear source source' parent n n') (field : Field)
    (hkind : n.kind.holdsNames = true)
    (hfield : [some Field.name, some .alias, some .source].contains (some field) = true) :
    (n'.child? field).map (·.text source') = (n.child? field).map (·.text source) := by
  rcases exists_of_rel (h.child? field) with ⟨hnone, hnone'⟩ | ⟨c, c', hc, hc', hrel⟩
  · rw [hnone, hnone']
    rfl
  · have hrole : c.field = some field := by simpa using List.find?_some hc
    rw [hc, hc', Option.map_some, Option.map_some, hrel.text_eq]
    rw [Node.isName, hkind, hrole, hfield]
    simp

/-- The parts of a kind. -/
theorem ofKind (h : Commented clear source source' parent n n') (kind : Kind)
    (hkind : kind ≠ .comment) :
    List.Forall₂ (fun c c' => c.kind = kind ∧ Commented clear source source' n.kind c c')
      (n.namedChildren.filter (·.kind == kind)) (n'.namedChildren.filter (·.kind == kind)) := by
  refine (List.forall₂_and_left _ _).mpr
    ⟨fun c hc => by simpa using (List.mem_filter.mp hc).2, ?_⟩
  rw [Node.namedChildren, Node.namedChildren, List.filter_filter, List.filter_filter]
  exact h.children.filter (fun k _ => k == kind && k.named) (by simp [hkind.symm])

/-- The first part of a kind. -/
theorem childOfKind? (h : Commented clear source source' parent n n') (kind : Kind)
    (hkind : kind ≠ .comment) : Option.Rel (Commented clear source source' n.kind)
      (n.childOfKind? kind) (n'.childOfKind? kind) := by
  rw [Node.childOfKind?, Node.childOfKind?, Node.namedChildren, Node.namedChildren,
    List.find?_filter, List.find?_filter]
  exact h.children.find? (fun k _ => decide (k.named = true ∧ (k == kind) = true))
    (by simp [hkind.symm])

/-- **A comment names no types**, and all else names what it named before. -/
theorem texts_typeNames (h : Commented clear source source' parent n n') :
    n'.typeNames.map (·.text source') = n.typeNames.map (·.text source) := by
  induction n using Node.induct generalizing parent n' with
  | step kind field span children ih =>
    obtain ⟨htext, hchildren⟩ := h
    rename_i span' children'
    rw [Node.typeNames, Node.typeNames]
    by_cases hname : kind = .typeIdentifier
    · rw [if_pos hname, if_pos hname, List.map_singleton, List.map_singleton, htext]
      simp [Node.isName, Node.kind, hname]
    rw [if_neg hname, if_neg hname]
    by_cases hgeneric : kind = .genericType
    · rw [if_pos hgeneric, if_pos hgeneric, List.map_append, List.map_append]
      refine congrArg₂ (· ++ ·) ?_ ?_
      · rcases exists_of_rel (hchildren.find? (fun _ f => f == some .name) rfl) with
          ⟨hnone, hnone'⟩ | ⟨c, c', hc, hc', hrel⟩
        · rw [hnone, hnone']
          rfl
        · rw [hc, hc', Option.filter_some, Option.filter_some, hrel.kind_eq]
          split
          · next hkind =>
            rw [Option.toList_some, Option.toList_some, List.map_singleton, List.map_singleton,
              hrel.text_eq]
            simp [Node.isName, beq_iff_eq.mp hkind]
          · rfl
      · rw [Node.typeNamesOfArguments_eq, Node.typeNamesOfArguments_eq]
        rcases exists_of_rel (hchildren.find? (fun k _ => k == .typeArguments) rfl) with
          ⟨hnone, hnone'⟩ | ⟨c, c', hc, hc', hrel⟩
        · rw [hnone, hnone']
          rfl
        · rw [hc, hc']
          exact ih c (List.mem_of_find?_eq_some hc) hrel
    rw [if_neg hgeneric, if_neg hgeneric]
    split
    · rw [Node.typeNamesOfNamed_eq, Node.typeNamesOfNamed_eq, List.map_flatMap, List.map_flatMap]
      refine Kept.eq (hchildren.flatMap_named (fun c hc c' hrel => ?_) fun c hkind => ?_) trivial
      · exact .of_map_eq (f := id) (g := id) (by rw [ih c hc hrel])
      · rw [Node.typeNames_of_comment hkind]
        rfl
    · rfl

end Commented

/-! ### Telling a tree with comments -/

instance (p : Place) (before after : List Node) : Decidable (p.Clear before after) :=
  decidable_of_iff ((p.picksFirst = true → before.any (·.kind.named) = true) ∧
    (p.kind = .unary → after.any (·.kind.named) = true) ∧
    (p.kind = .importStatement → after ≠ []))
    ⟨fun h => ⟨h.1, h.2.1, h.2.2⟩, fun h => ⟨h.first, h.last, h.final⟩⟩

mutual

/-- Whether the second tree is the first one with comments put in. -/
def Node.isCommented (clear : Prop) [Decidable clear] (source source' : Bytes) (parent : Kind)
    (node : Node) : Node → Bool
  | .mk kind field span children =>
    kind = node.kind && field = node.field &&
    (node.isName parent → (Node.mk kind field span children).text source' = node.text source) &&
    areCommented clear source source' [] ⟨parent, node.kind, node.field⟩ node.children children

/-- Whether the second nodes are the first ones with comments in between and inside of them. -/
def Node.areCommented (clear : Prop) [Decidable clear] (source source' : Bytes)
    (before : List Node) (p : Place) (nodes : List Node) : List Node → Bool
  | [] => nodes.isEmpty
  | child :: rest =>
    child.kind = .comment && child.field = none && (clear → p.Clear before nodes) &&
        areCommented clear source source' before p nodes rest ||
      match nodes with
      | [] => false
      | node :: nodes => isCommented clear source source' p.kind node child &&
        areCommented clear source source' (before ++ [node]) p nodes rest

end

variable [Decidable clear]

mutual

theorem Node.isCommented_iff : (n' : Node) → {parent : Kind} → {n : Node} →
    (n.isCommented clear source source' parent n' = true ↔
      Commented clear source source' parent n n')
  | .mk kind' field' span' children', parent, .mk kind field span children => by
    rw [Node.isCommented, Bool.and_eq_true, Bool.and_eq_true, Bool.and_eq_true, decide_eq_true_eq,
      decide_eq_true_eq, decide_eq_true_eq, Node.areCommented_iff children']
    constructor
    · rintro ⟨⟨⟨rfl, rfl⟩, htext⟩, hchildren⟩
      exact .mk htext hchildren
    · rintro ⟨htext, hchildren⟩
      exact ⟨⟨⟨rfl, rfl⟩, htext⟩, hchildren⟩

theorem Node.areCommented_iff : (ns' : List Node) → {before : List Node} → {p : Place} →
    {ns : List Node} → (Node.areCommented clear source source' before p ns ns' = true ↔
      Interspersed clear (Commented clear source source') before p ns ns')
  | [], before, p, ns => by
    rw [Node.areCommented, List.isEmpty_iff]
    constructor
    · rintro rfl
      exact .nil
    · rintro ⟨⟩
      rfl
  | c :: ns', before, p, ns => by
    unfold Node.areCommented
    rw [Bool.or_eq_true, Bool.and_eq_true, Bool.and_eq_true, Bool.and_eq_true,
      decide_eq_true_eq, decide_eq_true_eq, decide_eq_true_eq, Node.areCommented_iff ns']
    constructor
    · rintro (⟨⟨⟨hkind, hfield⟩, hclear⟩, hrest⟩ | hnode)
      · exact .comment hkind hfield hclear hrest
      · cases ns with
        | nil => exact absurd hnode Bool.false_ne_true
        | cons n ns =>
          obtain ⟨hn, hrest⟩ := Bool.and_eq_true_iff.mp hnode
          exact .node ((Node.isCommented_iff c).mp hn) ((Node.areCommented_iff ns').mp hrest)
    · intro h
      cases h with
      | node hn hrest =>
        exact Or.inr (Bool.and_eq_true_iff.mpr
          ⟨(Node.isCommented_iff c).mpr hn, (Node.areCommented_iff ns').mpr hrest⟩)
      | comment hkind hfield hclear hrest => exact Or.inl ⟨⟨⟨hkind, hfield⟩, hclear⟩, hrest⟩

end

instance : Decidable (Commented clear source source' parent n n') :=
  decidable_of_iff _ (Node.isCommented_iff n')

end Syntax

end TypeGraft
