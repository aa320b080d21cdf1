import TypeGraft.Proofs.Splice.Hoisting

/-!
# Type parameters

A type parameter of a declaration hides any type of its name, in the text of that declaration and
nowhere else. When the members of a base are merged into an interface, text moves from the one to
the other, and what hides what may change.

**In the text of its own declaration** a mention of a parameter is no reference, so nothing is ever
written there, and each other mention reads as the search found
(`TypeGraft.Harvest.Sited.wording_of_parameter`, `TypeGraft.Harvest.Sited.exists_slotOf`). The body
after merging is made of these texts and of nothing else (`TypeGraft.Harvest.Worded.text`).

**The parameters are hygienic** (`TypeGraft.Harvest.Hygienic`) if no other name becomes one of them,
and each parameter of a base that is merged reads as the type argument which is given for it.
Nothing in the program sees to either (`TypeGraft.Harvest.exists_captured`,
`TypeGraft.Harvest.exists_unhygienic`). When it is so is told by
`TypeGraft.Harvest.worded_of_search`.

* A parameter can only be taken for a type whose name is in use (`TypeGraft.Harvest.InUse`). One
  that was made up for the block has the mark in front.
* A parameter of a base reads as its argument just if the argument is written like the parameter
  (`TypeGraft.Harvest.Restates`), as in `interface D<T> extends B<T>`.
-/

namespace TypeGraft

open Syntax

/-- The type arguments of a base, in order. -/
def Heritage.argumentNodes (base : Heritage) : List Node :=
  base.arguments.toList.flatMap fun list => list.namedChildren.filter fun child => !child.isComment

namespace Harvest

variable {world : World} {s s' : Harvest} {o o' : Outline} {requests : List RootRequest}
  {external : Bool} {key owner : Key} {e : Graft} {orders : Orders} {own : Table Key Bytes}
  {m : Mention} {r : Reference}

/-! ### What mentions read -/

/-- The reference of which a span of a declaration is the slot. -/
def slotOf? (s : Harvest) (owner : Key) (span : Span) : Option Reference :=
  s.references.find? fun r => r.owner = some owner ∧ r.span = some span

/-- **What a mention reads in the end**, in the text of the declaration that holds it. What is no
reference stays as it is. -/
def wording (s : Harvest) (o : Outline) (owner : Key) (span : Span) : Bytes :=
  match s.slotOf? owner span with
  | some r => s.reading o r
  | none => span.slice o.source

/-- **The body of a declaration**, mention by mention. -/
def bodyText (s : Harvest) (key : Key) : Bytes :=
  match s.graft? key, s.files.get? key.file with
  | some e, some o =>
    Slots.fill e.declaration.content e.declaration.body.start e.declaration.body.start
      ((e.declaration.bodyMentions o.source).map fun m => (m.span, s.wording o key m.span))
  | _, _ => []

theorem of_slotOf? {span : Span} (h : s.slotOf? owner span = some r) :
    r ∈ s.references ∧ r.owner = some owner ∧ r.span = some span := by
  rw [slotOf?] at h
  have hp := List.find?_some h
  exact ⟨List.mem_of_find?_eq_some h, of_decide_eq_true hp⟩

/-- A mention in a body is called what stands in its slot. -/
theorem name_of_mem_bodyMentions {d : Declaration} {source : Bytes}
    (hm : m ∈ d.bodyMentions source) : m.name = Bytes.toStringLossy (m.span.slice source) := by
  unfold Declaration.bodyMentions at hm
  split at hm
  · split at hm
    · exact Mention.name_of_mem_ofBlock hm
    · exact Mention.name_of_mem_ofType hm
  · exact Mention.name_of_mem_ofBlock hm
  · exact absurd hm List.not_mem_nil

/-- Two mentions of a declaration do not stand in one place. -/
theorem nodup_span_mentions {d : Declaration} {source : Bytes} (hlaid : d.Laid source) :
    ((d.mentions source).map (·.span)).Nodup := by
  refine hlaid.row_mentions.nodup fun a ha => ?_
  obtain ⟨m, hm, rfl⟩ := List.mem_map.mp ha
  exact (hlaid.names m hm).2

theorem eq_of_span {d : Declaration} {source : Bytes} (hlaid : d.Laid source) {m m' : Mention}
    (hm : m ∈ d.mentions source) (hm' : m' ∈ d.mentions source) (hspan : m.span = m'.span) :
    m = m' :=
  List.inj_on_of_nodup_map (nodup_span_mentions hlaid) hm hm' hspan

/-- A mention in a body is followed if it names no parameter. -/
theorem mem_freeMentions_iff {d : Declaration} {source : Bytes} (hm : m ∈ d.bodyMentions source) :
    m ∈ d.freeMentions source ↔ m.name ∉ d.parameterNames := by
  have hmem : m ∈ d.mentions source := d.mentions_eq source ▸ List.mem_append_right _ hm
  have hkind : (m.kind == .extends_) = false :=
    beq_eq_false_iff_ne.mpr (kind_of_mem_bodyMentions hm)
  simp [Declaration.freeMentions, hmem, hkind]

/-- The mentions in a body that are followed. -/
theorem filter_contains_freeMentions {d : Declaration} {source : Bytes} (hlaid : d.Laid source) :
    (d.freeMentions source).filter (fun m => d.body.contains m.span) =
      (d.bodyMentions source).filter fun m => !d.parameterNames.contains m.name := by
  rw [← filter_mentions hlaid, Declaration.freeMentions, List.filter_filter, List.filter_filter]
  refine List.filter_congr fun m hm => ?_
  cases hin : d.body.contains m.span with
  | false => simp
  | true =>
    have hbody := mem_bodyMentions_of_contains hlaid hm hin
    have hkind : (m.kind == .extends_) = false :=
      beq_eq_false_iff_ne.mpr (kind_of_mem_bodyMentions hbody)
    simp [hkind]

namespace Sited

variable (h : s.Sited o requests) (he : s.graft? key = some e)
    (ho : s.files.get? key.file = some o')
include h he ho

theorem laid_of_graft : e.declaration.Laid o'.source := by
  obtain ⟨o₁, ho₁, hlaid, -⟩ := h.exists_outline he
  obtain rfl : o₁ = o' := Option.some.inj (ho₁.symm.trans ho)
  exact hlaid

theorem standing_eq : s.standing (some key) = mentioned o' e.declaration := by
  obtain ⟨o₁, ho₁, -, hstanding⟩ := h.exists_outline he
  obtain rfl : o₁ = o' := Option.some.inj (ho₁.symm.trans ho)
  exact hstanding

/-- A reference of a declaration is one of its mentions. -/
theorem exists_freeMention (hr : r ∈ s.references) (howner : r.owner = some key) :
    ∃ m ∈ e.declaration.freeMentions o'.source, r.span = some m.span ∧ r.name = m.name := by
  have hmem : r.bare ∈ s.standing (some key) :=
    List.mem_filter.mpr ⟨List.mem_map_of_mem hr, decide_eq_true howner⟩
  rw [h.standing_eq he ho] at hmem
  obtain ⟨m, hm, hbare⟩ := List.mem_map.mp hmem
  exact ⟨m, hm, congrArg (fun r => r.span) hbare.symm, congrArg (fun r => r.name) hbare.symm⟩

/-- **A mention that names no parameter** has a reference. -/
theorem exists_slotOf (hm : m ∈ e.declaration.freeMentions o'.source) :
    ∃ r ∈ s.references, s.slotOf? key m.span = some r ∧ r.owner = some key ∧
      r.span = some m.span ∧ r.name = m.name := by
  have hmem : Reference.ofMention e.declaration.key (Outline.lineAt o'.source m.span.start) m ∈
      s.standing (some key) := by
    rw [h.standing_eq he ho]
    exact List.mem_map_of_mem hm
  obtain ⟨hmem, howner⟩ := List.mem_filter.mp hmem
  obtain ⟨r, hr, hbare⟩ := List.mem_map.mp hmem
  have howner' : r.owner = some key :=
    (congrArg (fun r => r.owner) hbare).trans (of_decide_eq_true howner)
  have hspan : r.span = some m.span := congrArg (fun r => r.span) hbare
  have hsome : (s.slotOf? key m.span).isSome :=
    List.find?_isSome.mpr ⟨r, hr, by simp [howner', hspan]⟩
  obtain ⟨x, hx⟩ := Option.isSome_iff_exists.mp hsome
  obtain ⟨hxmem, hxowner, hxspan⟩ := of_slotOf? hx
  obtain ⟨m', hm', hm'span, hname⟩ := h.exists_freeMention he ho hxmem hxowner
  -- what stands in one place is one mention
  obtain rfl : m' = m := eq_of_span (h.laid_of_graft he ho) (List.mem_filter.mp hm').1
    (List.mem_filter.mp hm).1 (Option.some.inj (hm'span.symm.trans hxspan))
  exact ⟨x, hxmem, hx, hxowner, hxspan, hname⟩

theorem slotOf?_of_parameter (hm : m ∈ e.declaration.bodyMentions o'.source)
    (hname : m.name ∈ e.declaration.parameterNames) : s.slotOf? key m.span = none := by
  refine Option.eq_none_iff_forall_ne_some.mpr fun r hr => ?_
  obtain ⟨hmem, howner, hspan⟩ := of_slotOf? hr
  obtain ⟨m', hm', hm'span, -⟩ := h.exists_freeMention he ho hmem howner
  have hmem : m ∈ e.declaration.mentions o'.source :=
    e.declaration.mentions_eq o'.source ▸ List.mem_append_right _ hm
  obtain rfl : m' = m := eq_of_span (h.laid_of_graft he ho) (List.mem_filter.mp hm').1 hmem
    (Option.some.inj (hm'span.symm.trans hspan))
  exact (mem_freeMentions_iff hm).mp hm' hname

/-- **A parameter stays as it is** in the text of its declaration. -/
theorem wording_of_parameter (hm : m ∈ e.declaration.bodyMentions o'.source)
    (hname : m.name ∈ e.declaration.parameterNames) :
    s.wording o' key m.span = Bytes.ofString m.name := by
  obtain ⟨text, htext⟩ := (h.laid_of_graft he ho).legible m hm
  rw [wording, h.slotOf?_of_parameter he ho hm hname, name_of_mem_bodyMentions hm, ← htext,
    Bytes.toStringLossy_ofString]

/-- The slots of all references of a declaration. -/
theorem map_place_filter :
    (s.references.filter fun r => decide (r.owner = some key)).map (·.place) =
      (e.declaration.freeMentions o'.source).map (·.span) := by
  have heq := congrArg (List.map (·.place)) (h.standing_eq he ho)
  rw [standing, mentions, List.filter_map, List.map_map, mentioned, List.map_map] at heq
  exact heq

/-- The slot of a reference is that of no other one. -/
theorem slotOf?_of_mem (hr : r ∈ s.bodyReferences key e.declaration) :
    s.slotOf? key r.place = some r := by
  obtain ⟨hmem, hp⟩ := List.mem_filter.mp hr
  have howner := (of_decide_eq_true hp).1
  obtain ⟨m, hm, hspan, -⟩ := h.exists_freeMention he ho hmem howner
  obtain ⟨x, hxmem, hx, hxowner, hxspan, -⟩ := h.exists_slotOf he ho hm
  have hplace : r.place = m.span := by rw [Reference.place, hspan]; rfl
  have hxplace : x.place = m.span := by rw [Reference.place, hxspan]; rfl
  have honce :
      ((s.references.filter fun r => decide (r.owner = some key)).map (·.place)).Nodup := by
    rw [h.map_place_filter he ho]
    exact (nodup_span_mentions (h.laid_of_graft he ho)).sublist (List.filter_sublist.map _)
  obtain rfl : x = r := List.inj_on_of_nodup_map honce
    (List.mem_filter.mpr ⟨hxmem, decide_eq_true hxowner⟩)
    (List.mem_filter.mpr ⟨hmem, decide_eq_true howner⟩) (hxplace.trans hplace.symm)
  rw [hplace, hx]

/-- The slots in a body, each with what it reads. -/
theorem map_slot_bodyReferences :
    (s.bodyReferences key e.declaration).map (fun r => (r.place, s.reading o' r)) =
      ((e.declaration.bodyMentions o'.source).filter
        fun m => !e.declaration.parameterNames.contains m.name).map
          fun m => (m.span, s.wording o' key m.span) := by
  have hplaces : (s.bodyReferences key e.declaration).map (·.place) =
      ((e.declaration.bodyMentions o'.source).filter
        fun m => !e.declaration.parameterNames.contains m.name).map (·.span) := by
    have hspans : (mentioned o' e.declaration).filterMap (·.span) =
        (e.declaration.freeMentions o'.source).map (·.span) := by
      rw [mentioned, List.filterMap_map, ← List.filterMap_eq_map]
      rfl
    rw [map_place_bodyReferences, h.standing_eq he ho, hspans, List.filter_map,
      ← filter_contains_freeMentions (h.laid_of_graft he ho)]
    rfl
  calc (s.bodyReferences key e.declaration).map (fun r => (r.place, s.reading o' r))
      = (s.bodyReferences key e.declaration).map
          ((fun a => (a, s.wording o' key a)) ∘ (·.place)) := by
        refine List.map_congr_left fun r hr => ?_
        rw [Function.comp_apply, wording, h.slotOf?_of_mem he ho hr]
    _ = _ := by
        rw [← List.map_map, hplaces, List.map_map]
        rfl

/-- **The body of a declaration, mention by mention.** -/
theorem filledBody_eq : filledBody e = .ok (s.bodyText key) := by
  obtain ⟨o₁, body, hbody, hreads⟩ := h.exists_reads he
  obtain rfl : o₁ = o' := Option.some.inj (hreads.file.symm.trans ho)
  have hlaid := h.laid_of_graft he ho
  have hslots : Slots.Laid e.declaration.body ((e.declaration.bodyMentions o₁.source).map
      fun m => (m.span, s.wording o₁ key m.span)) := by
    rw [Slots.Laid, List.map_map]
    exact hlaid.members
  have hkept : (e.declaration.bodyMentions o₁.source).filterMap (fun m =>
      if !e.declaration.parameterNames.contains m.name then
        some (m.span, s.wording o₁ key m.span) else none) =
      (s.bodyReferences key e.declaration).map fun r => (r.place, s.reading o₁ r) := by
    rw [h.map_slot_bodyReferences he ho, ← List.filterMap_eq_map, List.filterMap_filter]
    rfl
  rw [hbody, hreads.eq, ← hkept, bodyText, he, ho]
  dsimp only
  refine congrArg Except.ok (Slots.fill_filterMap hslots le_rfl
    (fun m hm => (hlaid.members.inside _ (List.mem_map_of_mem hm)).1) fun m hm => ?_)
  cases hname : e.declaration.parameterNames.contains m.name with
  | false => exact Or.inl (if_pos rfl)
  | true =>
    -- a parameter has no slot, and is copied with the text around it
    refine Or.inr ⟨if_neg Bool.false_ne_true, ?_⟩
    change s.wording o₁ key m.span = _
    rw [wording, h.slotOf?_of_parameter he ho hm (List.contains_iff_mem.mp hname)]
    exact slice_of_mem_bodyMentions hlaid hm

end Sited

/-! ### What is given for a parameter -/

/-- The text of a type argument, if it is known what stands for the parameters of the declaration
that gives it. -/
def argumentText (s : Harvest) (o : Outline) (owner : Key) (d : Declaration)
    (outer : String → Option Bytes) (argument : Node) : Option Bytes :=
  ((Mention.ofType o.source .member argument).mapM fun m =>
    (if m.name ∈ d.parameterNames then outer m.name else some (s.wording o owner m.span)).map
      fun text => (m.span, text)).map
    (Slots.fill (argument.span.slice o.source) argument.span.start argument.span.start)

/-- **What stands for the parameters of a base** in the text of an interface that extends it,
directly or not: the type arguments of the clauses that lead there, one put into the other. -/
inductive Gives (s : Harvest) (key : Key) : Key → (String → Option Bytes) → Prop where
  | self : Gives s key key fun name => some (Bytes.ofString name)
  | clause {owner base : Key} {e e' : Graft} {o : Outline} {outer : String → Option Bytes}
      {clause : Heritage × RefId} (h : Gives s key owner outer) (he : s.graft? owner = some e)
      (ho : s.files.get? owner.file = some o) (hedge : s.inherits.Edge owner base)
      (hclause : clause ∈ s.heritages e.declaration) (htarget : s.targetOf clause.2 = some base)
      (he' : s.graft? base = some e') :
      Gives s key base fun name =>
        clause.1.argumentNodes[e'.declaration.parameterNames.idxOf name]?.bind
          (s.argumentText o owner e.declaration outer)

theorem Gives.path {base : Key} {given : String → Option Bytes} (h : s.Gives key base given) :
    s.inherits.Path key base := by
  induction h with
  | self => exact Relation.ReflTransGen.refl
  | clause _ _ _ hedge _ _ _ ih => exact ih.tail hedge

/-- What the clauses of an interface that name a base give for the parameters which this mentions in
its body, each time with the parameter. -/
def handed (s : Harvest) (key base : Key) : List (Option Bytes × String) :=
  match s.graft? key, s.files.get? key.file, s.graft? base, s.files.get? base.file with
  | some e, some o, some e', some o' =>
    ((s.heritages e.declaration).filter fun clause =>
        s.targetOf clause.2 = some base).flatMap fun clause =>
      ((e'.declaration.bodyMentions o'.source).filter fun m =>
          m.name ∈ e'.declaration.parameterNames).map fun m =>
        (clause.1.argumentNodes[e'.declaration.parameterNames.idxOf m.name]?.bind
          (s.argumentText o key e.declaration fun name => some (Bytes.ofString name)), m.name)
  | _, _, _, _ => []

/-! ### Hygiene -/

/-- A reference in the body that is written for a declaration, which takes in those of all that it
extends. -/
def InBody (s : Harvest) (key : Key) (r : Reference) : Prop :=
  ∃ owner e, (owner = key ∨ owner ∈ s.ancestors key) ∧ s.graft? owner = some e ∧
    r ∈ s.bodyReferences owner e.declaration

/-- A reference in a clause that the head of an interface keeps. -/
def InHead (s : Harvest) (key : Key) (e : Graft) (r : Reference) : Prop :=
  r ∈ s.references ∧ r.owner = some key ∧ ∃ clause ∈ s.heritages e.declaration,
    (s.targetOf clause.2).any s.hasMembers = false ∧
      r.span.any clause.1.span.contains = true

theorem mem_references_of_shown (h : s.InBody key r ∨ s.InHead key e r) : r ∈ s.references := by
  rcases h with ⟨_, _, -, -, hr⟩ | ⟨hr, -⟩
  · exact (List.mem_filter.mp hr).1
  · exact hr

/-- **No name that is written is that of a parameter.** -/
def Uncaptured (s : Harvest) (key : Key) (e : Graft) : Prop :=
  ∀ r, s.InBody key r ∨ s.InHead key e r → ∀ used, s.Binds r used →
    s.newNameOf used ∉ e.declaration.parameterNames

/-- **The parameters of a declaration are hygienic** in its text. -/
structure Hygienic (s : Harvest) (key : Key) (e : Graft) : Prop where
  uncaptured : s.Uncaptured key e
  /-- Neither is a name that was not found, and is left as it is. -/
  undisturbed : ∀ r, s.InBody key r → r.target = none → r.name ∉ e.declaration.parameterNames
  /-- A parameter of a base reads as the argument that is given for it. -/
  instantiated : ∀ base given, s.Gives key base given → base ≠ key → ∀ e' o,
    s.graft? base = some e' → s.files.get? base.file = some o →
      ∀ m ∈ e'.declaration.bodyMentions o.source, m.name ∈ e'.declaration.parameterNames →
        given m.name = some (s.wording o base m.span)

/-- **The arguments that are given for the parameters of bases** are written like these, as far as
the bodies of the bases mention them. -/
def Restates (s : Harvest) (key : Key) : Prop :=
  ∀ base given, s.Gives key base given → base ≠ key → ∀ e' o,
    s.graft? base = some e' → s.files.get? base.file = some o →
      ∀ m ∈ e'.declaration.bodyMentions o.source, m.name ∈ e'.declaration.parameterNames →
        given m.name = some (Bytes.ofString m.name)

/-- **A name in use**: the mentions of types read like one of these in the end. -/
inductive InUse (s : Harvest) : String → Prop where
  /-- An alias or an interface of the script keeps its name. -/
  | own {key : Key} {e : Graft} (he : s.graft? key = some e)
      (hentry : s.isEntryFile key.file = true) (hd : e.declaration.isEnumeration = false) :
      InUse s key.name
  /-- What is asked for goes by the name in the request. -/
  | requested {ref : RefId} {r : Reference} (href : ref ∈ s.roots)
      (hr : s.reference? ref = some r) : InUse s r.name
  /-- What is not found stays as it is. -/
  | unknown {r : Reference} (hr : r ∈ s.references) (h : r.target = none) : InUse s r.name
  /-- Any other name was made up, and has the mark in front. -/
  | marked {name : String} (h : inlineMark.toList <+: name.toList) : InUse s name

/-- **How the text of a declaration is worded** after merging, and what becomes of parameters
there. -/
structure Worded (s : Harvest) (orders : Orders) (own : Table Key Bytes) (key : Key) (e : Graft) :
    Prop where
  /-- The text is the body with those of all that is extended, mention by mention. -/
  text : (s.absorbParents orders own).2.get? key =
    some (insertMembers ((s.ancestors key).flatMap fun base => memberText (s.bodyText base))
      (s.bodyText key))
  /-- In each of them the parameters of the declaration stay as they are, and any other mention
  reads as its reference. -/
  mentions : ∀ owner e' o, s.graft? owner = some e' → s.files.get? owner.file = some o →
    ∀ m ∈ e'.declaration.bodyMentions o.source,
      (m.name ∈ e'.declaration.parameterNames →
        s.wording o owner m.span = Bytes.ofString m.name) ∧
      (m.name ∉ e'.declaration.parameterNames → ∃ r ∈ s.references, r.owner = some owner ∧
        r.span = some m.span ∧ r.name = m.name ∧ s.wording o owner m.span = s.reading o r)
  /-- Clauses lead to each base. -/
  given : ∀ base ∈ s.ancestors key, base ≠ key ∧ ∃ given, s.Gives key base given
  /-- **The parameters are hygienic** just if no name becomes one of them and the arguments are
  written like the parameters that they are given for. -/
  hygienic_iff : s.Hygienic key e ↔ s.Uncaptured key e ∧
    (∀ base ∈ s.ancestors key, ∀ e', s.graft? base = some e' →
      ∀ r ∈ s.bodyReferences base e'.declaration, r.target = none →
        r.name ∉ e.declaration.parameterNames) ∧
    s.Restates key
  /-- No name becomes a parameter if no parameter has a name in use. -/
  fresh : (∀ name ∈ e.declaration.parameterNames, ¬s.InUse name) → s.Restates key →
    s.Hygienic key e
  /-- Nothing has to be given for the parameters of bases that do not mention them. -/
  unmentioned : (∀ base ∈ s.ancestors key, ∀ e' o, s.graft? base = some e' →
    s.files.get? base.file = some o → ∀ m ∈ e'.declaration.bodyMentions o.source,
      m.name ∉ e'.declaration.parameterNames) → s.Restates key

theorem insertMembers_nil (body : Bytes) : insertMembers [] body = body := by
  rw [insertMembers]
  split
  · next hmem =>
    obtain ⟨front, rest, rfl, hfront⟩ := List.eq_append_cons_of_mem hmem
    have hpass : ∀ b ∈ front, (b != (0x7b : UInt8)) = true := fun b hb =>
      bne_iff_ne.mpr fun heq => hfront (heq ▸ hb)
    rw [List.takeWhile_append_of_pos hpass, List.dropWhile_append_of_pos hpass]
    simp
  · rfl

theorem inheritedBody_eq (s : Harvest) (own : Table Key Bytes) (key : Key) :
    s.inheritedBody own key = insertMembers
      ((s.ancestors key).flatMap fun base => memberText ((own.get? base).getD []))
      ((own.get? key).getD []) := by
  rw [inheritedBody]
  split
  · next hnil => rw [hnil, List.flatMap_nil, insertMembers_nil]
  · rfl

/-- What was taken in goes by a name in use. -/
theorem WellNamed.inUse (h : s.WellNamed o) (he : s.graft? key = some e) :
    s.InUse e.newName := by
  by_cases hentry : s.isEntryFile key.file = true
  · cases hd : e.declaration.isEnumeration with
    | false =>
      rw [h.own key e he hentry hd]
      exact InUse.own he hentry hd
    | true =>
      obtain ⟨n, hname⟩ := h.enumeration key e he hd
      exact InUse.marked (hname ▸ mark_prefix_numbered key.name n)
  · by_cases hroot : ∃ ref ∈ s.roots, ∃ r, s.reference? ref = some r ∧ r.name = e.newName
    · obtain ⟨ref, href, r, hr, hname⟩ := hroot
      exact hname ▸ InUse.requested href hr
    · refine InUse.marked (h.marked key e he (Bool.eq_false_iff.mpr hentry) ?_).1
      exact fun ref href r hr _ hname => hroot ⟨ref, href, r, hr, hname⟩

/-- **Clauses lead to each base** of an interface. -/
theorem Mergeable.exists_gives (h : s.Mergeable orders own)
    (hfile : ∀ key e, s.graft? key = some e → ∃ o, s.files.get? key.file = some o) {base : Key}
    (hpath : Relation.TransGen s.inherits.Edge key base) : ∃ given, s.Gives key base given := by
  have hstep : ∀ u v outer, s.Gives key u outer → s.inherits.Edge u v →
      ∃ given, s.Gives key v given := by
    intro u v outer hu hedge
    obtain ⟨⟨e, -, he, -⟩, e', he', -⟩ := h.inherits u v hedge
    obtain ⟨o, ho⟩ := hfile u e he
    obtain ⟨hparents, -, hsub⟩ := h.siblings he
    obtain ⟨clause, hclause, htarget⟩ :=
      List.mem_filterMap.mp (hsub.subset ((hparents v).mpr hedge))
    exact ⟨_, Gives.clause hu he ho hedge hclause htarget he'⟩
  induction hpath with
  | single hedge => exact hstep _ _ _ Gives.self hedge
  | tail _ hedge ih =>
    obtain ⟨outer, hu⟩ := ih
    exact hstep _ _ outer hu hedge

/-- Nothing has to be given for a parameter that is not mentioned. -/
theorem restates_of_unmentioned (hg : s.inherits.WellFormed)
    (hbases : ∀ base ∈ s.ancestors key, ∀ e' o, s.graft? base = some e' →
      s.files.get? base.file = some o → ∀ m ∈ e'.declaration.bodyMentions o.source,
        m.name ∉ e'.declaration.parameterNames) : s.Restates key := by
  intro base given hgives hne e' o' he' ho' m hm hname
  have hbase : base ∈ s.ancestors key := (mem_ancestors_iff hg).mpr ⟨hgives.path, hne⟩
  exact absurd hname (hbases base hbase e' o' he' ho' m hm)

section Worded

variable (hsited : s.Sited o requests)
include hsited

theorem mentions_worded (owner : Key) (e' : Graft) (o' : Outline)
    (he' : s.graft? owner = some e') (ho' : s.files.get? owner.file = some o')
    (m : Mention) (hm : m ∈ e'.declaration.bodyMentions o'.source) :
    (m.name ∈ e'.declaration.parameterNames →
      s.wording o' owner m.span = Bytes.ofString m.name) ∧
    (m.name ∉ e'.declaration.parameterNames → ∃ r ∈ s.references, r.owner = some owner ∧
      r.span = some m.span ∧ r.name = m.name ∧ s.wording o' owner m.span = s.reading o' r) := by
  refine ⟨hsited.wording_of_parameter he' ho' hm, fun hname => ?_⟩
  obtain ⟨r, hr, hslot, howner, hspan, hrname⟩ :=
    hsited.exists_slotOf he' ho' ((mem_freeMentions_iff hm).mpr hname)
  exact ⟨r, hr, howner, hspan, hrname, by rw [wording, hslot]⟩

/-- A name in the body of a declaration is none of its parameters, if it has a reference. -/
theorem name_of_mem_bodyReferences (he : s.graft? key = some e)
    (hr : r ∈ s.bodyReferences key e.declaration) : r.name ∉ e.declaration.parameterNames := by
  obtain ⟨o', ho, -⟩ := hsited.exists_outline he
  obtain ⟨hmem, hp⟩ := List.mem_filter.mp hr
  obtain ⟨howner, hcontains⟩ := of_decide_eq_true hp
  obtain ⟨m, hm, hspan, hname⟩ := hsited.exists_freeMention he ho hmem howner
  rw [hspan] at hcontains
  have hbody := mem_bodyMentions_of_contains (hsited.laid_of_graft he ho)
    (List.mem_filter.mp hm).1 hcontains
  rw [hname]
  exact (mem_freeMentions_iff hbody).mp hm

theorem restates_iff : s.Restates key ↔ ∀ base given, s.Gives key base given → base ≠ key →
    ∀ e' o, s.graft? base = some e' → s.files.get? base.file = some o →
      ∀ m ∈ e'.declaration.bodyMentions o.source, m.name ∈ e'.declaration.parameterNames →
        given m.name = some (s.wording o base m.span) := by
  refine forall₄_congr fun base given _ _ => forall₄_congr fun e' o' he' ho' =>
    forall₃_congr fun m hm hname => ?_
  rw [hsited.wording_of_parameter he' ho' hm hname]

theorem hygienic_iff (he : s.graft? key = some e) : s.Hygienic key e ↔ s.Uncaptured key e ∧
    (∀ base ∈ s.ancestors key, ∀ e', s.graft? base = some e' →
      ∀ r ∈ s.bodyReferences base e'.declaration, r.target = none →
        r.name ∉ e.declaration.parameterNames) ∧ s.Restates key := by
  rw [restates_iff hsited]
  constructor
  · rintro ⟨huncaptured, hundisturbed, hinstantiated⟩
    exact ⟨huncaptured, fun base hbase e' he' r hr =>
      hundisturbed r ⟨base, e', Or.inr hbase, he', hr⟩, hinstantiated⟩
  · rintro ⟨huncaptured, hundisturbed, hinstantiated⟩
    refine ⟨huncaptured, ?_, hinstantiated⟩
    rintro r ⟨owner, e', rfl | hbase, he', hr⟩ htarget
    · obtain rfl := Option.some.inj (he.symm.trans he')
      exact name_of_mem_bodyReferences hsited he hr
    · exact hundisturbed owner hbase e' he' r hr htarget

/-- **The body after merging**, mention by mention. -/
theorem Mergeable.text_eq (hmergeable : s.Mergeable orders own) (he : s.graft? key = some e) :
    (s.absorbParents orders own).2.get? key =
      some (insertMembers ((s.ancestors key).flatMap fun base => memberText (s.bodyText base))
        (s.bodyText key)) := by
  have hown : ∀ k e', s.graft? k = some e' → own.get? k = some (s.bodyText k) := by
    intro k e' he'
    obtain ⟨o', ho', -⟩ := hsited.exists_outline he'
    obtain ⟨body, hbody, hget⟩ := get?_of_filledBodies hmergeable.bodies he'
    rw [hget, ← Except.ok.inj (hbody.symm.trans (hsited.filledBody_eq he' ho'))]
  have hbases : ∀ base ∈ s.ancestors key, memberText ((own.get? base).getD []) =
      memberText (s.bodyText base) := by
    intro base hbase
    obtain ⟨u, -, hedge⟩ := Relation.TransGen.tail'_iff.mp
      ((mem_ancestors_iff_transGen hmergeable.wellFormed hmergeable.acyclic).mp hbase)
    obtain ⟨-, e', he', -⟩ := hmergeable.inherits u base hedge
    rw [hown base e' he', Option.getD_some]
  rw [hmergeable.get?_absorbed he, inheritedBody_eq, hown key e he, Option.getD_some,
    List.flatMap_congr hbases]

/-- **Parameters with names of their own** are hygienic, if those of the bases read as they
should. -/
theorem Hygienic.of_not_inUse (hnamed : s.WellNamed o) (he : s.graft? key = some e)
    (hfresh : ∀ name ∈ e.declaration.parameterNames, ¬s.InUse name) (hrestates : s.Restates key) :
    s.Hygienic key e := by
  refine (hygienic_iff hsited he).mpr ⟨?_, ?_, hrestates⟩
  · intro r hr used hbinds hname
    have hkept : s.isLeftOut r used = false := by
      rw [isLeftOut, Option.any_eq_false]
      exact fun d hd => by rw [hbinds.2 d hd]
    obtain ⟨e', he'⟩ := hsited.taken r (mem_references_of_shown hr) used hbinds.1 hkept
    rw [newNameOf_of_graft? he'] at hname
    exact hfresh _ hname (hnamed.inUse he')
  · intro base _ e' _ r hr htarget hname
    exact hfresh _ hname (InUse.unknown (List.mem_filter.mp hr).1 htarget)

end Worded

/-! ### One base -/

/-- What is handed to a base directly is given to it. -/
theorem Restates.of_mem_handed {base : Key} (h : s.Restates key) (hedge : s.inherits.Edge key base)
    (hne : base ≠ key) {x : Option Bytes × String} (hx : x ∈ s.handed key base) :
    x.1 = some (Bytes.ofString x.2) := by
  unfold handed at hx
  split at hx
  · next e o e' o' he ho he' ho' =>
    obtain ⟨clause, hclause, hx⟩ := List.mem_flatMap.mp hx
    obtain ⟨hclause, htarget⟩ := List.mem_filter.mp hclause
    obtain ⟨m, hm, rfl⟩ := List.mem_map.mp hx
    obtain ⟨hm, hname⟩ := List.mem_filter.mp hm
    exact h base _ (Gives.clause Gives.self he ho hedge hclause (of_decide_eq_true htarget) he') hne
      e' o' he' ho' m hm (of_decide_eq_true hname)
  · exact absurd hx List.not_mem_nil

/-- If nothing else is extended, what is handed to the base is all that is given. -/
theorem restates_of_handed {base : Key} (hne : base ≠ key)
    (honly : ∀ u v, s.inherits.Edge u v → u = key ∧ v = base)
    (hall : ∀ x ∈ s.handed key base, x.1 = some (Bytes.ofString x.2)) : s.Restates key := by
  intro base' given hgives hne' e' o' he' ho' m hm hname
  cases hgives with
  | self => exact absurd rfl hne'
  | clause hfirst he ho hedge hclause htarget hbase =>
    obtain ⟨rfl, rfl⟩ := honly _ _ hedge
    obtain rfl := Option.some.inj (he'.symm.trans hbase)
    cases hfirst with
    | self =>
      refine hall (_, m.name) ?_
      rw [handed, he, ho, he', ho']
      exact List.mem_flatMap.mpr ⟨_, List.mem_filter.mpr ⟨hclause, decide_eq_true htarget⟩,
        List.mem_map_of_mem (List.mem_filter.mpr ⟨hm, decide_eq_true hname⟩)⟩
    | clause _ _ _ hback _ _ _ => exact absurd (honly _ _ hback).2.symm hne

/-- **How texts are worded after merging**, in every session, and when the parameters in them are
hygienic. The bodies are those that the block is written with. -/
theorem worded_of_search {found : Harvest} (hsession : ParsedSession world s o requests external)
    (h : s.search world o requests external = (found, .ok ())) :
    ∃ own, found.orders.1.filledBodies = .ok own ∧
      (∀ key e, found.orders.1.graft? key = some e →
        found.orders.1.Worded found.orders.2 own key e) ∧
      ∀ clean ended spliced, found.orders.1.splice found.orders.2 clean = .ok (ended, spliced) →
        ended.block (found.orders.1.absorbParents found.orders.2 own).2
          (ended.blockKeys found.orders.2) = .ok spliced.block := by
  obtain ⟨own, hmergeable⟩ := mergeable_of_search hsession h
  have hsited := (sited_of_search hsession.session h).ordered
  have hnamed : found.orders.1.WellNamed o := by
    obtain ⟨last, hsteps, -, rfl⟩ := exists_steps_of_search h
    exact (wellNamed_harvest hsession.session.opened hsteps).of_keeps
      ⟨rfl, rfl, rfl, rfl, rfl, rfl, rfl⟩ rfl
  refine ⟨own, hmergeable.bodies, fun key e he => ?_, fun clean ended spliced hsplice =>
    block_of_splice hmergeable.bodies hsplice⟩
  exact {
    text := hmergeable.text_eq hsited he
    mentions := mentions_worded hsited
    given := by
      intro base hbase
      refine ⟨(path_of_mem_ancestors hbase).2, hmergeable.exists_gives (fun k e' he' => ?_)
        ((mem_ancestors_iff_transGen hmergeable.wellFormed hmergeable.acyclic).mp hbase)⟩
      obtain ⟨o', ho', -⟩ := hsited.exists_outline he'
      exact ⟨o', ho'⟩
    hygienic_iff := hygienic_iff hsited he
    fresh := Hygienic.of_not_inUse hsited hnamed he
    unmentioned := restates_of_unmentioned hmergeable.wellFormed }

end Harvest

/-! ### Three runs -/

/-- A script with an interface that hands its parameter on to its base. -/
def handsOn : String :=
  "\ntype Own = string\ninterface B<T> \x7b v: T[]; o: Own[] \x7d\n" ++
    "interface D<T> extends B<T> \x7b d: T \x7d\ndefineProps<D>()\n"

/-- Whether an interface of a script extends one other, and has some text after merging. -/
def Harvest.mergesTo (found : Harvest) (name base text : String) : Bool :=
  decide (found.orders.1.inherits.edges = [(inScript name, inScript base)]) &&
    found.orders.1.filledBodies.toOption.any fun own =>
      decide ((found.orders.1.absorbParents found.orders.2 own).2.get? (inScript name) =
        some (Bytes.ofString text))

theorem Harvest.of_mergesTo {found : Harvest} {name base text : String} {own : Table Key Bytes}
    (h : found.mergesTo name base text = true) (hown : found.orders.1.filledBodies = .ok own) :
    found.orders.1.inherits.edges = [(inScript name, inScript base)] ∧
      (found.orders.1.absorbParents found.orders.2 own).2.get? (inScript name) =
        some (Bytes.ofString text) := by
  obtain ⟨hedges, htext⟩ := (Bool.and_eq_true _ _).mp h
  rw [hown] at htext
  exact ⟨of_decide_eq_true hedges, of_decide_eq_true htext⟩

/-- Whether the block of a search reads in some way. -/
def Harvest.printsAs (found : Harvest) (text : String) : Bool :=
  (found.orders.1.splice found.orders.2 .none).toOption.any fun result =>
    decide (result.2.block = text)

theorem Harvest.exists_of_printsAs {found : Harvest} {text : String}
    (h : found.printsAs text = true) : ∃ ended spliced,
      found.orders.1.splice found.orders.2 .none = .ok (ended, spliced) ∧ spliced.block = text := by
  rw [printsAs] at h
  cases hsplice : found.orders.1.splice found.orders.2 .none with
  | error _ =>
    rw [hsplice] at h
    exact absurd h Bool.false_ne_true
  | ok result =>
    rw [hsplice] at h
    exact ⟨result.1, result.2, rfl, of_decide_eq_true h⟩

set_option maxRecDepth 100000 in
/-- The base reads as if it had been given the parameter of the interface, since its own has the
same name. -/
theorem Harvest.worded_of_search_handsOn :
    ∃ s o requests found own e, Harvest.ParsedSession World.baseModule s o requests false ∧
      s.search World.baseModule o requests false = (found, .ok ()) ∧
      found.orders.1.filledBodies = .ok own ∧
      found.orders.1.graft? (inScript "D") = some e ∧ e.declaration.parameterNames = ["T"] ∧
      (found.orders.1.absorbParents found.orders.2 own).2.get? (inScript "D") =
        some (Bytes.ofString "\x7b v: T[]; o: Own[]; d: T \x7d") ∧
      found.orders.1.Worded found.orders.2 own (inScript "D") e ∧
      found.orders.1.Hygienic (inScript "D") e := by
  obtain ⟨s, o, requests, found, hsession, hsearch, hexpected⟩ := Harvest.exists_of_sessionComesTo
    (show Harvest.sessionComesTo World.baseModule ["defineProps"] "/w/App.vue"
      (Bytes.ofString handsOn) (fun found =>
        found.mergesTo "D" "B" "\x7b v: T[]; o: Own[]; d: T \x7d" &&
          ((found.orders.1.graft? (inScript "D")).any fun e =>
            decide (e.declaration.parameterNames = ["T"])) &&
          decide ((∀ r ∈ found.orders.1.references, ∀ used ∈ r.target,
              found.orders.1.newNameOf used ≠ "T") ∧
            (∀ r ∈ found.orders.1.references, r.target ≠ none) ∧
            ∀ x ∈ found.orders.1.handed (inScript "D") (inScript "B"),
              x.1 = some (Bytes.ofString x.2))) = true
      by decide +kernel)
  obtain ⟨hrun, hnames⟩ := (Bool.and_eq_true _ _).mp hexpected
  obtain ⟨hmerges, hparameters⟩ := (Bool.and_eq_true _ _).mp hrun
  obtain ⟨e, he, hparameters⟩ := (Option.any_eq_true _ _).mp hparameters
  obtain ⟨hwritten, hfound, hhanded⟩ := of_decide_eq_true hnames
  obtain ⟨own, hown, hworded, -⟩ := Harvest.worded_of_search hsession hsearch
  obtain ⟨hedges, htext⟩ := Harvest.of_mergesTo hmerges hown
  have hworded := hworded _ e he
  refine ⟨s, o, requests, found, own, e, hsession, hsearch, hown, he,
    of_decide_eq_true hparameters, htext, hworded, hworded.hygienic_iff.mpr ⟨?_, ?_, ?_⟩⟩
  · intro r hr used hbinds hname
    rw [of_decide_eq_true hparameters, List.mem_singleton] at hname
    exact hwritten r (Harvest.mem_references_of_shown hr) used hbinds.1 hname
  · exact fun base _ e' _ r hr htarget => absurd htarget (hfound r (List.mem_filter.mp hr).1)
  · refine Harvest.restates_of_handed (by decide) (fun u v huv => ?_) hhanded
    rw [Digraph.Edge, hedges, List.mem_singleton] at huv
    exact Prod.mk.inj huv

/-- A script with an interface that gives its base a type. -/
def givesType : String :=
  "\ninterface B<T> \x7b v: T \x7d\ninterface D extends B<string> \x7b d: string \x7d\n" ++
    "defineProps<D>()\n"

set_option maxRecDepth 100000 in
/-- **A parameter of the base gets away** into an interface that does not have it: what the
interface gives for it is lost. -/
theorem Harvest.exists_unhygienic :
    ∃ s o requests found e ended spliced,
      Harvest.ParsedSession World.baseModule s o requests false ∧
      s.search World.baseModule o requests false = (found, .ok ()) ∧
      found.orders.1.graft? (inScript "D") = some e ∧
      (some (Bytes.ofString "string"), "T") ∈
        found.orders.1.handed (inScript "D") (inScript "B") ∧
      found.orders.1.splice found.orders.2 .none = .ok (ended, spliced) ∧
      spliced.block = "interface D \x7b v: T; d: string \x7d" ∧
      ¬found.orders.1.Hygienic (inScript "D") e := by
  obtain ⟨s, o, requests, found, hsession, hsearch, hexpected⟩ := Harvest.exists_of_sessionComesTo
    (show Harvest.sessionComesTo World.baseModule ["defineProps"] "/w/App.vue"
      (Bytes.ofString givesType) (fun found =>
        found.printsAs "interface D \x7b v: T; d: string \x7d" &&
        decide ((inScript "D", inScript "B") ∈ found.orders.1.inherits.edges ∧
          (found.orders.1.graft? (inScript "D")).isSome ∧
          (some (Bytes.ofString "string"), "T") ∈
            found.orders.1.handed (inScript "D") (inScript "B"))) = true
      by decide +kernel)
  obtain ⟨hblock, hexpected⟩ := (Bool.and_eq_true _ _).mp hexpected
  obtain ⟨hedge, hgraft, hhanded⟩ := of_decide_eq_true hexpected
  obtain ⟨e, he⟩ := Option.isSome_iff_exists.mp hgraft
  obtain ⟨ended, spliced, hsplice, hblock⟩ := Harvest.exists_of_printsAs hblock
  refine ⟨s, o, requests, found, e, ended, spliced, hsession, hsearch, he, hhanded, hsplice, hblock,
    fun hhygienic => ?_⟩
  have hsited := (Harvest.sited_of_search hsession.session hsearch).ordered
  have hrestates := ((Harvest.hygienic_iff hsited he).mp hhygienic).2.2
  exact absurd (hrestates.of_mem_handed hedge (by decide) hhanded) (by decide +kernel)

/-- A module with an alias and an interface with a parameter. -/
def World.aliasModule : World :=
  World.ofTree ⟨["w"],
    [(["w", "a.ts"], Bytes.ofString
      "export type U = string\nexport interface D<T> \x7b u: U[]; t: T \x7d\n")]⟩ []

/-- A script that asks for the alias by the name of the parameter. -/
def asksAsParameter : String :=
  "\nimport \x7b U as T, D \x7d from './a'\ndefineEmits<T>()\ndefineProps<D>()\n"

set_option maxRecDepth 100000 in
/-- **A name that is written becomes a parameter**: the slot of the alias reads like a mention of
the parameter now. -/
theorem Harvest.exists_captured :
    ∃ s o requests found e ended spliced,
      Harvest.ParsedSession World.aliasModule s o requests false ∧
      s.search World.aliasModule o requests false = (found, .ok ()) ∧
      found.orders.1.graft? ⟨"/w/a.ts", "D"⟩ = some e ∧
      found.orders.1.splice found.orders.2 .none = .ok (ended, spliced) ∧
      spliced.block = "type T = string;\ninterface D<T> \x7b u: T[]; t: T \x7d" ∧
      ¬found.orders.1.Uncaptured ⟨"/w/a.ts", "D"⟩ e := by
  obtain ⟨s, o, requests, found, hsession, hsearch, hexpected⟩ := Harvest.exists_of_sessionComesTo
    (show Harvest.sessionComesTo World.aliasModule ["defineProps", "defineEmits"] "/w/App.vue"
      (Bytes.ofString asksAsParameter) (fun found =>
        found.printsAs "type T = string;\ninterface D<T> \x7b u: T[]; t: T \x7d" &&
        (found.orders.1.graft? ⟨"/w/a.ts", "D"⟩).any fun e =>
          (found.orders.1.bodyReferences ⟨"/w/a.ts", "D"⟩ e.declaration).any fun r =>
            decide (r.target = some ⟨"/w/a.ts", "U"⟩ ∧
              found.orders.1.isLeftOut r ⟨"/w/a.ts", "U"⟩ = false ∧
              found.orders.1.newNameOf ⟨"/w/a.ts", "U"⟩ ∈ e.declaration.parameterNames)) = true
      by decide +kernel)
  obtain ⟨hblock, hexpected⟩ := (Bool.and_eq_true _ _).mp hexpected
  obtain ⟨e, he, hexpected⟩ := (Option.any_eq_true _ _).mp hexpected
  obtain ⟨r, hr, hexpected⟩ := List.any_eq_true.mp hexpected
  obtain ⟨htarget, hkept, hname⟩ := of_decide_eq_true hexpected
  obtain ⟨ended, spliced, hsplice, hblock⟩ := Harvest.exists_of_printsAs hblock
  refine ⟨s, o, requests, found, e, ended, spliced, hsession, hsearch, he, hsplice, hblock,
    fun huncaptured => ?_⟩
  refine huncaptured r (Or.inl ⟨_, e, Or.inl rfl, he, hr⟩) _ ⟨htarget, fun d hd => ?_⟩ hname
  rw [Harvest.isLeftOut, hd] at hkept
  exact hkept

end TypeGraft
