import TypeGraft.Mention
import TypeGraft.Proofs.Syntax.Comments

/-!
# Declarations with comments

What a declaration says and mentions when comments are put in among the parts of its tree
(`TypeGraft.Syntax.Commented`).

Its name, its type parameters and its bases are picked by their roles and kinds, and so are the
types inside of a type: these are the same. Two things are picked by their place.

* The type of a property is the first part of its ascription. A comment ahead of it is taken for the
  type and mentions nothing (`TypeGraft.Mention.alike_ofProperty`).
* The value of a member of an enumeration may stand in parentheses, where it is the first part, or
  behind an operator, where it is the last one. A comment at its place has no kind
  (`TypeGraft.Outline.valueKind?_eq_or`).

So what is mentioned with comments is left of what was mentioned without
(`TypeGraft.Outline.alike_declaration?`).
-/

namespace TypeGraft

open Syntax Syntax.Node

variable {clear : Prop} {source source' : Bytes} {parent : Kind} {n n' : Node}

/-! ### Mentions -/

namespace Mention

/-- What a mention says, apart from where it stands. -/
def told (m : Mention) : String × MentionKind × Bool := (m.name, m.kind, m.nested)

/-- Two mentions say the same. -/
def Alike (m m' : Mention) : Prop := m'.told = m.told

theorem alike_ofType (h : Commented clear source source' parent n n') (kind : MentionKind)
    (strict : Prop) : Kept strict Alike (ofType source kind n) (ofType source' kind n') := by
  have hmap : ∀ (source : Bytes) (n : Node), (ofType source kind n).map told =
      (n.typeNames.map (·.text source)).map fun name => (name, kind, false) := by
    intro source n
    rw [ofType, List.map_map, List.map_map]
    rfl
  refine .of_map_eq ?_
  rw [hmap, hmap, h.texts_typeNames]

/-- The mentions in the type of a property. -/
def ofPropertyType (source : Bytes) (type : Node) : List Mention :=
  if type.kind = .typeIdentifier then [ofNode source .property true type]
  else ofType source .property type

theorem alike_ofPropertyType (h : Commented clear source source' parent n n') (strict : Prop) :
    Kept strict Alike (ofPropertyType source n) (ofPropertyType source' n') := by
  rw [ofPropertyType, ofPropertyType, h.kind_eq]
  split
  · next hkind =>
    refine .cons ?_ .nil
    rw [Alike, told, told, ofNode, ofNode, h.text_eq (by simp [Node.isName, hkind])]
  · exact alike_ofType h .property strict

theorem ofPropertyType_of_comment {c : Node} (hkind : c.kind = .comment) :
    ofPropertyType source c = [] := by
  rw [ofPropertyType, if_neg (by simp [hkind]), ofType, typeNames_of_comment hkind]
  rfl

/-- The mentions in a property. -/
def ofProperty (source : Bytes) (property : Node) : List Mention :=
  ((property.child? .type).bind Node.ascribedType?).toList.flatMap (ofPropertyType source)

theorem ofBlock_eq (source : Bytes) (block : Node) : ofBlock source block =
    (block.namedChildren.filter (·.kind == .propertySignature)).flatMap (ofProperty source) := by
  rw [ofBlock, propertyTypes, List.filterMap_eq_flatMap_toList, List.flatMap_assoc]
  rfl

/-- **A comment ahead of the type of a property** hides what the type mentions. -/
theorem alike_ofProperty (h : Commented clear source source' parent n n') :
    Kept clear Alike (ofProperty source n) (ofProperty source' n') := by
  rw [ofProperty, ofProperty]
  rcases exists_of_rel (h.child? .type) with ⟨hnone, hnone'⟩ | ⟨c, c', hc, hc', hrel⟩
  · rw [hnone, hnone']
    exact .nil
  rw [hc, hc', Option.bind_some, Option.bind_some, ascribedType?, ascribedType?, hrel.kind_eq]
  split
  · next hkind =>
    rw [Node.namedChildren, Node.namedChildren, List.head?_filter, List.head?_filter]
    rcases (hrel.children.first (by simp [Place.picksFirst, hkind]) rfl).found_or_hidden with
      ⟨hnone, hnone'⟩ | ⟨type, type', htype, htype', hrel⟩ | ⟨hlost, comment, hcomment, hkind⟩
    · rw [hnone, hnone']
      exact .nil
    · rw [htype, htype', Option.toList_some, Option.toList_some, List.flatMap_singleton,
        List.flatMap_singleton]
      exact alike_ofPropertyType hrel clear
    · rw [hcomment, Option.toList_some, List.flatMap_singleton, ofPropertyType_of_comment hkind]
      exact .lose hlost _
  · rw [Option.toList_some, Option.toList_some, List.flatMap_singleton, List.flatMap_singleton]
    exact alike_ofPropertyType hrel clear

theorem alike_ofBlock (h : Commented clear source source' parent n n') :
    Kept clear Alike (ofBlock source n) (ofBlock source' n') := by
  rw [ofBlock_eq, ofBlock_eq]
  refine Kept.flatMap (.of_forall₂ (h.ofKind .propertySignature (by simp))) ?_
  exact fun property _ property' hrel => alike_ofProperty hrel.2

end Mention

/-! ### Bases -/

/-- What a base says, apart from where it stands and from what its arguments are. -/
def Heritage.told (b : Heritage) : String × Bool := (b.name, b.arguments.isSome)

/-- Two bases have one name and the same arguments, with comments. -/
structure Heritage.Alike (clear : Prop) (source source' : Bytes) (b b' : Heritage) : Prop where
  name : b'.name = b.name
  arguments : Option.Rel (Commented clear source source' .genericType) b.arguments b'.arguments

theorem Heritage.Alike.told_eq {b b' : Heritage} (h : b.Alike clear source source' b') :
    b'.told = b.told := by
  rw [told, told, h.name]
  rcases exists_of_rel h.arguments with ⟨hnone, hnone'⟩ | ⟨a, a', ha, ha', -⟩
  · rw [hnone, hnone']
  · rw [ha, ha', Option.isSome_some, Option.isSome_some]

theorem Mention.alike_ofBase {b b' : Heritage} (h : b.Alike clear source source' b') :
    Kept clear Alike (ofBase source b) (ofBase source' b') := by
  obtain ⟨hname, harguments⟩ := h
  refine .cons (by rw [Alike, told, told, hname]) ?_
  exact (Kept.of_rel harguments).flatMap fun a _ a' hrel => alike_ofType hrel .member clear

namespace Outline

variable {path specifier : String} {strict : Bool} {o o' : Outline}

theorem alike_heritage? (h : Commented clear source source' parent n n') :
    Option.Rel (Heritage.Alike clear source source') (heritage? source n)
      (heritage? source' n') := by
  have hkind := h.kind_eq
  unfold heritage?
  dsimp only
  by_cases hgeneric : n.kind = .genericType
  · rw [hkind, hgeneric]
    refine .some ⟨?_, ?_⟩
    · have htext := h.text_child?_eq .name (by rw [hgeneric]; rfl) rfl
      dsimp only
      rcases exists_of_rel (h.child? .name) with ⟨hnone, hnone'⟩ | ⟨c, c', hc, hc', hrel⟩
      · rw [hnone, hnone']
        exact h.text_eq (by simp [Node.isName, hgeneric, hnone])
      · rw [hc, hc'] at htext ⊢
        exact Option.some.inj htext
    · exact hgeneric ▸ h.childOfKind? .typeArguments (by simp)
  · by_cases hname : n.kind = .typeIdentifier ∨ n.kind = .qualifiedType
    · have htext : n'.text source' = n.text source :=
        h.text_eq (by rcases hname with hname | hname <;> simp [Node.isName, hname])
      rw [hkind]
      rcases hname with hname | hname
      · rw [hname]
        exact .some ⟨htext, .none⟩
      · rw [hname]
        exact .some ⟨htext, .none⟩
    · rw [hkind]
      generalize n.kind = kind at hgeneric hname
      split
      · exact absurd rfl hgeneric
      · exact absurd (Or.inl rfl) hname
      · exact absurd (Or.inr rfl) hname
      · exact .none

/-- The bases are the same. -/
theorem alike_bases (h : Commented clear source source' parent n n') (strict : Prop) :
    Kept strict (Heritage.Alike clear source source') (bases source n) (bases source' n') := by
  unfold bases
  refine Kept.flatMap (.of_forall₂ (h.children.filter (fun k _ => k == .extendsClause) rfl)) ?_
  intro clause _ clause' hclause
  rw [List.filterMap_eq_flatMap_toList, List.filterMap_eq_flatMap_toList]
  refine hclause.children.flatMap_named (fun type _ type' htype => ?_) fun c hkind => ?_
  · exact .of_rel (alike_heritage? htype)
  · rw [heritage?, hkind]
    rfl

/-- The names of the type parameters are the same. -/
theorem parameterNames_eq (h : Commented clear source source' parent n n') :
    parameterNames source' n' = parameterNames source n := by
  have hall := h.ofKind .typeParameter (by simp)
  unfold parameterNames
  refine Kept.eq ?_ trivial
  rw [List.filterMap_eq_flatMap_toList, List.filterMap_eq_flatMap_toList]
  refine Kept.flatMap (.of_forall₂ hall) fun parameter _ parameter' ⟨hkind, hrel⟩ => ?_
  rw [hrel.text_child?_eq .name (by rw [hkind]; rfl) rfl]
  exact .of_map_eq (f := id) (g := id) rfl

/-! ### Enumerations -/

theorem inside_eq (children : List Node) :
    valueKind?.inside children = (children.find? (·.kind.named)).bind valueKind? := by
  induction children with
  | nil => rw [valueKind?.inside]; rfl
  | cons child rest ih =>
    rw [valueKind?.inside, ih, List.find?_cons]
    split
    · next hnamed => rw [hnamed]; rfl
    · next hnamed => rw [Bool.eq_false_of_not_eq_true hnamed]

theorem valueKind?_of_comment {c : Node} (hkind : c.kind = .comment) : valueKind? c = none := by
  obtain ⟨kind, field, span, children⟩ := c
  obtain rfl : kind = .comment := hkind
  rfl

/-- **A comment hides the kind of a value**, if it is not in the clear. -/
theorem valueKind?_eq_or (h : Commented clear source source' parent n n') :
    valueKind? n' = valueKind? n ∨ ¬clear ∧ valueKind? n' = none := by
  induction n using Node.induct generalizing parent n' with
  | step kind field span children ih =>
    obtain ⟨-, hchildren⟩ := h
    rename_i span' children'
    unfold valueKind?
    split
    · exact Or.inl rfl
    · rcases (hchildren.last Kind.named rfl fun _ _ hclear => hclear.last rfl).found_or_hidden with
        ⟨hnone, hnone'⟩ | ⟨last, last', hlast, hlast', hrel⟩ | ⟨hlost, c, hc, hkind⟩
      · rw [hnone, hnone']
        exact Or.inl rfl
      · rw [hlast, hlast']
        dsimp only
        rw [hrel.kind_eq]
        exact Or.inl rfl
      · rw [hc]
        dsimp only
        rw [if_neg (by simp [hkind])]
        exact Or.inr ⟨hlost, rfl⟩
    · exact Or.inl rfl
    · rw [hchildren.any_eq (fun k _ => k == .substitution) rfl]
      exact Or.inl rfl
    · rw [inside_eq, inside_eq]
      rcases (hchildren.first (by simp [Place.picksFirst]) rfl).found_or_hidden with
        ⟨hnone, hnone'⟩ | ⟨inner, inner', hinner, hinner', hrel⟩ | ⟨hlost, c, hc, hkind⟩
      · rw [hnone, hnone']
        exact Or.inl rfl
      · rw [hinner, hinner']
        exact ih inner (List.mem_of_find?_eq_some hinner) hrel
      · rw [hc]
        refine Or.inr ⟨hlost, ?_⟩
        rw [Option.bind_some]
        exact valueKind?_of_comment hkind
    · exact Or.inl rfl

theorem memberKind?_eq_or (h : Commented clear source source' parent n n') :
    memberKind? n' = memberKind? n ∨ ¬clear ∧ memberKind? n' = none := by
  rw [memberKind?, memberKind?, h.kind_eq]
  split
  · rcases exists_of_rel (h.child? .value) with ⟨hnone, hnone'⟩ | ⟨c, c', hc, hc', hrel⟩
    · rw [hnone, hnone']
      exact Or.inl rfl
    · rw [hc, hc']
      exact valueKind?_eq_or hrel
  · exact Or.inl rfl

/-- The kinds of the values of an enumeration. -/
theorem valueKinds_kept (h : Commented clear source source' parent n n') :
    Kept clear (fun a b => b = a) (valueKinds n) (valueKinds n') := by
  unfold valueKinds
  rw [List.filterMap_eq_flatMap_toList, List.filterMap_eq_flatMap_toList, Node.namedChildren,
    Node.namedChildren, List.filter_filter, List.filter_filter]
  refine Kept.flatMap (.of_forall₂ (h.children.filter (fun k _ => !(k == .comment) && k.named) rfl))
    fun member _ member' hrel => ?_
  rcases memberKind?_eq_or hrel with heq | ⟨hlost, hnone⟩
  · rw [heq]
    exact .of_map_eq (f := id) (g := id) rfl
  · rw [hnone]
    exact .lose hlost _
end Outline

/-! ### Declarations -/

/-- What a declaration says, apart from where it stands and from what is copied. -/
def Declaration.told (d : Declaration) :
    String × String × String × Bool × List String × List (String × Bool) :=
  (d.name, d.file, d.word, d.hasMembers, d.parameterNames, d.bases.map Heritage.told)

/-- **Two declarations say the same**, and one mentions what is left of what the other does. -/
structure Declaration.Alike (clear : Prop) (source source' : Bytes) (d d' : Declaration) :
    Prop where
  told : d'.told = d.told
  mentions : ((d'.mentions source').map Mention.told).Sublist
    ((d.mentions source).map Mention.told)
  mentions_eq : clear →
    (d'.mentions source').map Mention.told = (d.mentions source).map Mention.told
  /-- So is what the declaration makes a search follow. -/
  freeMentions_eq : clear →
    (d'.freeMentions source').map Mention.told = (d.freeMentions source).map Mention.told
  /-- An enumeration stands for the same types. -/
  body : clear → d.isEnumeration = true → d'.content = d.content

theorem Declaration.Alike.of_kept {d d' : Declaration} (told : d'.told = d.told)
    (mentions : Kept clear Mention.Alike (d.mentions source) (d'.mentions source'))
    (body : clear → d.isEnumeration = true → d'.content = d.content) :
    d.Alike clear source source' d' := by
  have hparameters : d'.parameterNames = d.parameterNames :=
    congrArg (fun t => t.2.2.2.2.1) told
  have hfree : Kept clear Mention.Alike (d.freeMentions source) (d'.freeMentions source') := by
    refine mentions.filter fun m m' hm => ?_
    have hname : m'.name = m.name := congrArg Prod.fst hm
    have hkind : m'.kind = m.kind := congrArg (fun t => t.2.1) hm
    rw [hparameters, hname, hkind]
  exact ⟨told, mentions.sublist fun _ _ hm => hm,
    fun hclear => mentions.map_eq hclear fun _ _ hm => hm,
    fun hclear => hfree.map_eq hclear fun _ _ hm => hm, body⟩

namespace Outline

theorem declaredParameters_eq (h : Commented clear source source' parent n n') :
    ((n'.child? .typeParameters).map (parameterNames source')).getD [] =
      ((n.child? .typeParameters).map (parameterNames source)).getD [] := by
  rcases exists_of_rel (h.child? .typeParameters) with ⟨hnone, hnone'⟩ | ⟨c, c', hc, hc', hrel⟩
  · rw [hnone, hnone']
    rfl
  · rw [hc, hc']
    exact parameterNames_eq hrel

/-- **Comments change little in a declaration.** -/
theorem alike_declaration? (h : Commented clear source source' parent n n') (path : String)
    (statement statement' : Node) : Option.Rel (Declaration.Alike clear source source')
      (declaration? path source statement n) (declaration? path source' statement' n') := by
  unfold declaration?
  rcases exists_of_rel (h.child? .name) with ⟨hnone, hnone'⟩ | ⟨c, c', hc, hc', -⟩
  · rw [hnone, hnone']
    exact .none
  simp only [hc, hc', Option.bind_eq_bind, Option.bind_some, declaredParameters_eq h, h.kind_eq]
  have hspelled : n.kind.holdsNames = true → c'.text source' = c.text source := fun hkind => by
    have htext := h.text_child?_eq .name hkind rfl
    rw [hc, hc'] at htext
    exact Option.some.inj htext
  have hvalue := h.child? .value
  have hbody := h.child? .body
  have hbases : (bases source' n').map Heritage.told = (bases source n).map Heritage.told :=
    (alike_bases h True).map_eq trivial fun _ _ hrel => hrel.told_eq
  generalize n.kind = kind at hspelled hvalue hbody
  -- a type that is given a name, an interface, an enumeration, and what is no declaration
  split
  · rcases exists_of_rel hvalue with ⟨hnone, hnone'⟩ | ⟨value, value', hc, hc', hrel⟩
    · rw [hnone, hnone']
      exact .none
    rw [hc, hc']
    refine .some (.of_kept ?_ ?_ fun _ h => absurd h (by simp [Declaration.isEnumeration]))
    · simp [Declaration.told, Declaration.word, Declaration.hasMembers, Declaration.bases,
        hspelled rfl, hrel.kind_eq]
    · unfold Declaration.mentions
      dsimp only
      rw [hrel.kind_eq]
      split
      · exact Mention.alike_ofBlock hrel
      · exact Mention.alike_ofType hrel .member clear
  · rcases exists_of_rel hbody with ⟨hnone, hnone'⟩ | ⟨block, block', hc, hc', hrel⟩
    · rw [hnone, hnone']
      exact .none
    rw [hc, hc']
    refine .some (.of_kept ?_ ?_ fun _ h => absurd h (by simp [Declaration.isEnumeration]))
    · simp [Declaration.told, Declaration.word, Declaration.hasMembers, Declaration.bases,
        hspelled rfl, hbases]
    · unfold Declaration.mentions
      dsimp only
      refine .append ?_ (Mention.alike_ofBlock hrel)
      exact (alike_bases h clear).flatMap fun _ _ _ hrel => Mention.alike_ofBase hrel
  · refine .some (.of_kept ?_ .nil fun hclear _ => ?_)
    · simp [Declaration.told, Declaration.word, Declaration.hasMembers, Declaration.bases,
        hspelled rfl]
    · dsimp only
      rcases exists_of_rel hbody with ⟨hnone, hnone'⟩ | ⟨block, block', hc, hc', hrel⟩
      · rw [hnone, hnone']
      · rw [hc, hc', Option.map_some, Option.map_some, (valueKinds_kept hrel).eq hclear]
  · exact .none

end Outline

end TypeGraft
