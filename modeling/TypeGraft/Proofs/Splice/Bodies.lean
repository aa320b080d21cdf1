import TypeGraft.Proofs.Harvest.Layout
import TypeGraft.Proofs.Splice.Needs

/-!
# What bodies read

When a search is over, the body of each declaration that was taken in reads as it does in its file,
but for the slots in it (`TypeGraft.Harvest.bodies_of_search`): a slot holds the name of what its
reference was resolved to, or an empty object type if that is left out, or what stood there if the
reference was not resolved (`TypeGraft.Harvest.reading`).

Nothing is written into a slot that reads like the name already. So the texts that are written are
those of some of the slots, and the others read as they should anyway.
-/

namespace TypeGraft.Harvest

variable {world : World} {s s' : Harvest} {o : Outline} {requests : List RootRequest}
  {external : Bool} {key : Key} {e : Graft}

/-- The references whose slots lie in the body of a declaration. -/
def bodyReferences (s : Harvest) (key : Key) (d : Declaration) : List Reference :=
  s.references.filter fun r => r.owner = some key ∧ r.span.any d.body.contains = true

/-- **What the slot of a reference reads in the end**, if it stands in the file `o`. -/
def reading (s : Harvest) (o : Outline) (r : Reference) : Bytes :=
  match r.target with
  | none => r.place.slice o.source
  | some key => Bytes.ofString (if s.isLeftOut r key then "\x7b\x7d" else s.newNameOf key)

/-- **The body of a declaration with its slots filled.** -/
structure Reads (s : Harvest) (key : Key) (e : Graft) (o : Outline) (body : Bytes) : Prop where
  file : s.files.get? key.file = some o
  /-- The slots stand in the body, one behind the other. -/
  laid : Span.Row e.declaration.body
    ((s.bodyReferences key e.declaration).map (·.place))
  /-- What is copied is the body, unless it was made up; then nothing in it is a slot. -/
  content : e.declaration.content = e.declaration.body.slice o.source ∨
    s.bodyReferences key e.declaration = []
  eq : body = Slots.fill e.declaration.content e.declaration.body.start e.declaration.body.start
    ((s.bodyReferences key e.declaration).map fun r => (r.place, s.reading o r))
  /-- What a slot is named after was taken in. -/
  named : ∀ r ∈ s.bodyReferences key e.declaration, ∀ target, r.target = some target →
    s.isLeftOut r target = false → ∃ e', s.graft? target = some e'

/-! ### The slots of a body -/

theorem kind_of_mem_bodyMentions {d : Declaration} {source : Bytes} {m : Mention}
    (hm : m ∈ d.bodyMentions source) : m.kind ≠ .extends_ := by
  unfold Declaration.bodyMentions at hm
  split at hm
  · split at hm
    · rw [kind_of_mem_ofBlock hm]
      simp
    · rw [kind_of_mem_ofType hm]
      simp
  · rw [kind_of_mem_ofBlock hm]
    simp
  · exact absurd hm List.not_mem_nil

/-- The mentions of the bases of a declaration stand in front of its body. -/
theorem not_contains_of_mem_ofBase {d : Declaration} {source : Bytes} (hlaid : d.Laid source)
    {base : Heritage} (hbase : base ∈ d.bases) {m : Mention} (hm : m ∈ Mention.ofBase source base)
    (hrange : m.span.start < m.span.stop) : ¬d.body.contains m.span = true := by
  have hin : m.span.In base.span := (hlaid.bases base hbase).inside _ (List.mem_map_of_mem hm)
  have hahead : base.span.stop ≤ d.body.start := hlaid.ahead base hbase
  have hstop := hin.2.2
  rw [Span.contains, Bool.and_eq_true, decide_eq_true_eq, decide_eq_true_eq]
  omega

/-- **The mentions in the body** of a declaration are those whose slots lie there. -/
theorem filter_mentions {d : Declaration} {source : Bytes} (hlaid : d.Laid source) :
    (d.mentions source).filter (fun m => d.body.contains m.span) = d.bodyMentions source := by
  have hrange := fun m hm => (hlaid.names m hm).2
  rw [d.mentions_eq] at hrange ⊢
  rw [List.filter_append, List.filter_eq_nil_iff.mpr, List.nil_append, List.filter_eq_self.mpr]
  · exact fun m hm => (hlaid.members.inside _ (List.mem_map_of_mem hm)).contains
  · intro m hm
    obtain ⟨base, hbase, hbasem⟩ := List.mem_flatMap.mp hm
    exact not_contains_of_mem_ofBase hlaid hbase hbasem
      (hrange m (List.mem_append_left _ hm))

/-- A mention whose slot lies in the body of a declaration is not one of its bases. -/
theorem mem_bodyMentions_of_contains {d : Declaration} {source : Bytes} (hlaid : d.Laid source)
    {m : Mention} (hm : m ∈ d.mentions source) (hcontains : d.body.contains m.span = true) :
    m ∈ d.bodyMentions source := by
  rw [← filter_mentions hlaid]
  exact List.mem_filter.mpr ⟨hm, hcontains⟩

/-- An enumeration mentions nothing. -/
theorem isEnumeration_of_mem_bodyMentions {d : Declaration} {source : Bytes} {m : Mention}
    (hm : m ∈ d.bodyMentions source) : d.isEnumeration = false := by
  unfold Declaration.bodyMentions at hm
  unfold Declaration.isEnumeration
  split at hm
  · next hshape => rw [hshape]
  · next hshape => rw [hshape]
  · exact absurd hm List.not_mem_nil

/-- What is mentioned in a body is part of the text to copy. -/
theorem slice_of_mem_bodyMentions {d : Declaration} {source : Bytes} (hlaid : d.Laid source)
    {m : Mention} (hm : m ∈ d.bodyMentions source) : m.span.slice source =
      (d.content.drop (m.span.start - d.body.start).toNat).take
        (m.span.stop - m.span.start).toNat := by
  have hcontent := hlaid.content.resolve_right
    (by rw [isEnumeration_of_mem_bodyMentions hm]; exact Bool.false_ne_true)
  have hbody : d.body.In (.whole source) := hlaid.body.trans hlaid.statement.inside
  rw [hcontent]
  exact Span.slice_eq_of_in (hlaid.members.inside _ (List.mem_map_of_mem hm)) hbody.1 hbody.2.2

/-- The slots in the body of a declaration. -/
theorem map_place_bodyReferences (s : Harvest) (key : Key) (d : Declaration) :
    (s.bodyReferences key d).map (·.place) =
      ((s.standing (some key)).filterMap (·.span)).filter d.body.contains := by
  rw [bodyReferences, standing, mentions]
  induction s.references with
  | nil => rfl
  | cons r references ih =>
    rw [List.map_cons, List.filter_cons, List.filter_cons]
    by_cases howner : r.owner = some key
    · have hbare : r.bare.owner = some key := howner
      cases hspan : r.span with
      | none =>
        have hbare' : r.bare.span = none := hspan
        simpa [howner, hbare, hbare'] using ih
      | some a =>
        have hbare' : r.bare.span = some a := hspan
        have hplace : r.place = a := by rw [Reference.place, hspan]; rfl
        cases hin : d.body.contains a <;>
          simpa [howner, hbare, hbare', hin, hplace] using ih
    · have hbare : r.bare.owner ≠ some key := howner
      simpa [howner, hbare] using ih

/-- What is written into the body of a declaration, in order. -/
theorem filter_fillings (s : Harvest) (key : Key) (d : Declaration) :
    (s.fillings (some key)).filter d.holds =
      (s.bodyReferences key d).filterMap (s.fillingFor (some key)) := by
  rw [fillings, bodyReferences, List.filterMap_filter, List.filter_filterMap]
  refine congrArg (List.filterMap · _) (funext fun r => ?_)
  cases hx : s.fillingFor (some key) r with
  | none => simp
  | some x =>
    have howner : r.owner = some key := by
      by_contra howner
      rw [fillingFor, if_neg howner] at hx
      exact absurd hx (by simp)
    rw [fillingFor, if_pos howner] at hx
    obtain ⟨target, -, hx⟩ := Option.bind_eq_some_iff.mp hx
    cases hin : d.body.contains x.span <;>
      simp [howner, span_of_filling hx, Option.filter, Declaration.holds, hin]

namespace Sited

variable (h : s.Sited o requests) {o' : Outline} {r : Reference}
include h

/-- The slot of a reference in the body of a declaration. -/
theorem exists_mention (he : s.graft? key = some e) (ho : s.files.get? key.file = some o')
    (hr : r ∈ s.bodyReferences key e.declaration) :
    ∃ m ∈ e.declaration.bodyMentions o'.source, r.span = some m.span ∧ r.kind = m.kind := by
  obtain ⟨o₁, ho₁, hlaid, hstanding⟩ := h.exists_outline he
  obtain rfl : o₁ = o' := Option.some.inj (ho₁.symm.trans ho)
  obtain ⟨hr, hp⟩ := List.mem_filter.mp hr
  obtain ⟨howner, hcontains⟩ := of_decide_eq_true hp
  have hmem : r.bare ∈ s.standing (some key) :=
    List.mem_filter.mpr ⟨List.mem_map_of_mem hr, decide_eq_true howner⟩
  rw [hstanding] at hmem
  obtain ⟨m, hm, hbare⟩ := List.mem_map.mp hmem
  have hspan : r.span = some m.span := congrArg (fun r => r.span) hbare.symm
  rw [hspan] at hcontains
  exact ⟨m, mem_bodyMentions_of_contains hlaid (List.mem_filter.mp hm).1 hcontains, hspan,
    congrArg (fun r => r.kind) hbare.symm⟩

/-- The slots in the body of a declaration stand there, one behind the other. -/
theorem row_bodyReferences (he : s.graft? key = some e) :
    Span.Row e.declaration.body ((s.bodyReferences key e.declaration).map (·.place)) ∧
      ∀ a ∈ (s.bodyReferences key e.declaration).map (·.place), a.start < a.stop := by
  obtain ⟨hrow, hrange⟩ := h.row_standing he
  rw [map_place_bodyReferences]
  have hbody := hrow.sublist (List.filter_sublist (p := e.declaration.body.contains))
  refine ⟨⟨fun a ha => ?_, hbody.inOrder⟩, fun a ha => hrange a (List.mem_filter.mp ha).1⟩
  obtain ⟨ha, hcontains⟩ := List.mem_filter.mp ha
  rw [Span.contains, Bool.and_eq_true, decide_eq_true_eq, decide_eq_true_eq] at hcontains
  exact ⟨hcontains.1, Int.le_of_lt (hrange a ha), hcontains.2⟩

/-- **The slot of a reference in a body** holds what is written for it, or reads so already. -/
theorem written_or_own (he : s.graft? key = some e) (ho : s.files.get? key.file = some o')
    (hr : r ∈ s.bodyReferences key e.declaration) :
    (s.fillingFor (some key) r).map Replacement.slot = some (r.place, s.reading o' r) ∨
      (s.fillingFor (some key) r).map Replacement.slot = none ∧ s.reading o' r =
        (e.declaration.content.drop (r.place.start - e.declaration.body.start).toNat).take
          (r.place.stop - r.place.start).toNat := by
  obtain ⟨o₁, ho₁, hlaid, -⟩ := h.exists_outline he
  obtain rfl : o₁ = o' := Option.some.inj (ho₁.symm.trans ho)
  obtain ⟨m, hm, hspan, hkind⟩ := h.exists_mention he ho hr
  have hplace : r.place = m.span := by rw [Reference.place, hspan]; rfl
  have hown : r.place.slice o₁.source =
      (e.declaration.content.drop (r.place.start - e.declaration.body.start).toNat).take
        (r.place.stop - r.place.start).toNat := by
    rw [hplace]
    exact slice_of_mem_bodyMentions hlaid hm
  have howner : r.owner = some key := (of_decide_eq_true (List.mem_filter.mp hr).2).1
  rw [fillingFor, if_pos howner, reading]
  cases htarget : r.target with
  | none => exact Or.inr ⟨rfl, hown⟩
  | some target =>
    have hbase : ¬(r.kind = .extends_ ∧ s.hasMembers target = true) := by
      rintro ⟨hextends, -⟩
      exact kind_of_mem_bodyMentions hm (hkind.symm.trans hextends)
    rw [Option.bind_some, filling, hspan, Option.bind_some, howner]
    dsimp only
    rw [if_neg hbase]
    split
    · exact Or.inl (by rw [hplace]; rfl)
    · split
      · next hname =>
        -- the name stands there already
        obtain ⟨text, htext⟩ := hlaid.legible m hm
        rw [textOf, ho, Option.map_some, Option.getD_some, Outline.text, ← htext,
          Bytes.toStringLossy_ofString] at hname
        refine Or.inr ⟨rfl, ?_⟩
        rw [hname, htext, ← hplace, hown]
      · exact Or.inl (by rw [hplace]; rfl)

/-- **The body of a declaration** is that of its file with each slot reading what it should. -/
theorem exists_reads (he : s.graft? key = some e) :
    ∃ o' body, filledBody e = .ok body ∧ s.Reads key e o' body := by
  obtain ⟨o', ho, hlaid, hstanding⟩ := h.exists_outline he
  obtain ⟨hrow, hrange⟩ := h.row_bodyReferences he
  have hnamed : ∀ r ∈ s.bodyReferences key e.declaration, ∀ target, r.target = some target →
      s.isLeftOut r target = false → ∃ e', s.graft? target = some e' :=
    fun r hr => h.taken r (List.mem_filter.mp hr).1
  -- what was written into the body is what the names in it were resolved to
  have hperm : ((s.bodyReferences key e.declaration).filterMap (s.fillingFor (some key))).Perm
      e.replacementsInBody := by
    rw [← filter_fillings]
    have honce := h.filledOnce (some key)
    rw [written, he, Option.map_some, Option.getD_some] at honce
    exact (honce.filter _).symm
  rcases hlaid.content with hcontent | henum
  · -- the content is a part of the file, and each slot that is not written keeps its own name
    have hkept := fun r hr => h.written_or_own (r := r) he ho hr
    have hspan : ∀ r ∈ s.bodyReferences key e.declaration, ∀ x, s.fillingFor (some key) r = some x →
        x.span = r.place := by
      intro r hr x hx
      have hsome := hkept r hr
      rw [hx] at hsome
      have heq := hsome.resolve_right fun hnone => absurd hnone.1 (by simp)
      exact congrArg Prod.fst (Option.some.inj heq)
    have hbody : e.declaration.body.In (.whole o'.source) :=
      hlaid.body.trans hlaid.statement.inside
    have hlength : e.declaration.body.stop - e.declaration.body.start ≤
        e.declaration.content.length := by
      rw [hcontent, Span.length_slice hbody.1 hbody.2.1 hbody.2.2]
    have hwritten : Slots.Laid e.declaration.body (((s.bodyReferences key e.declaration).filterMap
        (s.fillingFor (some key))).map Replacement.slot) := by
      rw [Slots.Laid, List.map_map]
      refine hrow.filterMap fun r hr x hx => ?_
      have hplace : (Prod.fst ∘ Replacement.slot) x = r.place := hspan r hr x hx
      rw [hplace]
      exact ⟨le_rfl, Int.le_of_lt (hrange _ (List.mem_map_of_mem hr)), le_rfl⟩
    have hfilled := Replacement.applyAll_of_perm hperm hwritten (fun x hx => by
      obtain ⟨r, hr, hx⟩ := List.mem_filterMap.mp hx
      rw [hspan r hr x hx]
      exact hrange _ (List.mem_map_of_mem hr)) hlength
    refine ⟨o', _, hfilled, ho, hrow, Or.inl hcontent, ?_, hnamed⟩
    rw [List.map_filterMap]
    have hslots : Slots.Laid e.declaration.body
        ((s.bodyReferences key e.declaration).map fun r => (r.place, s.reading o' r)) := by
      rw [Slots.Laid, List.map_map]
      exact hrow
    exact Slots.fill_filterMap hslots le_rfl
      (fun r hr => (hrow.inside _ (List.mem_map_of_mem hr)).1) hkept
  · -- the content of an enumeration is made up, and names nothing
    have hnone : s.bodyReferences key e.declaration = [] := by
      refine List.eq_nil_iff_forall_not_mem.mpr fun r hr => ?_
      obtain ⟨m, hm, -⟩ := h.exists_mention he ho hr
      exact absurd henum (by rw [isEnumeration_of_mem_bodyMentions hm]; exact Bool.false_ne_true)
    rw [hnone] at hperm
    refine ⟨o', e.declaration.content, ?_, ho, hrow, Or.inr hnone, ?_, hnamed⟩
    · rw [filledBody, ← hperm.nil_eq]
      exact Replacement.applyAll_nil _ _
    · rw [hnone, List.map_nil, Slots.fill, Int.sub_self]
      rfl

end Sited

/-- **The bodies that a search comes to**: each declaration that was taken in has the body of its
file with each slot reading what it should, and it is named for some reference that is not left
out. -/
theorem bodies_of_search (hsession : Session world s o requests external)
    (h : s.search world o requests external = (s', .ok ())) :
    ∃ own, s'.orders.1.filledBodies = .ok own ∧ ∀ key e, s'.graft? key = some e →
      (∃ o' body, own.get? key = some body ∧ s'.Reads key e o' body) ∧
      ∃ ref r, s'.reference? ref = some r ∧ s'.Binds r key := by
  have hsited := sited_of_search hsession h
  obtain ⟨last, hsteps, -, rfl⟩ := exists_steps_of_search h
  have hsought := sought_of_steps hsession.opened hsteps
  obtain ⟨own, hown⟩ : ∃ own, last.harvest.filledBodies = .ok own := by
    refine exists_filledBodies fun key e hmem => ?_
    obtain ⟨-, body, hbody, -⟩ := hsited.exists_reads (Table.get?_of_mem hsited.once hmem)
    exact ⟨body, hbody⟩
  refine ⟨own, hown, fun key e he => ⟨?_, ?_⟩⟩
  · obtain ⟨o', body, hbody, hreads⟩ := hsited.exists_reads he
    obtain ⟨body', hbody', hget⟩ := get?_of_filledBodies hown he
    obtain rfl := Except.ok.inj (hbody.symm.trans hbody')
    exact ⟨o', body, hget, hreads⟩
  · exact (hsought key (by rw [he]; rfl)).2

end TypeGraft.Harvest

namespace TypeGraft

/-! ### Three slots -/

/-- A module with an interface that has three properties: one of a type with members, one of an
alias, and one of a type that is declared nowhere. -/
def World.threeSlots : World :=
  World.ofTree ⟨["w"],
    [(["w", "a.ts"], Bytes.ofString
      ("export type Foo = string\nexport interface Base \x7b s: Shape; t: Foo[]; u: Lost \x7d\n" ++
        "interface Shape \x7b x: number \x7d"))]⟩ []

/-- A script that names the alias in two ways. -/
def twoNames : String :=
  "\nimport \x7b Foo, Foo as G, Base \x7d from './a'\ntype Own = Foo[]\n" ++
    "interface P extends Base \x7b f: Foo \x7d\ndefineEmits<G>()\ndefineEmits<Foo>()\n" ++
    "defineProps<P>()\ndefineEmits<Own>()\n"

set_option maxRecDepth 100000 in
/-- The type with members is left out, the alias goes by its first name, and the third type
stays. -/
theorem Harvest.bodies_of_search_threeSlots :
    ∃ s o requests s', Harvest.Session World.threeSlots s o requests false ∧
      s.search World.threeSlots o requests false = (s', .ok ()) ∧
      ∃ own, s'.orders.1.filledBodies = .ok own ∧
        own.get? ⟨"/w/a.ts", "Base"⟩ =
          some (Bytes.ofString "\x7b s: \x7b\x7d; t: G[]; u: Lost \x7d") ∧
        ∃ ref r, s'.reference? ref = some r ∧ s'.Binds r ⟨"/w/a.ts", "Base"⟩ := by
  obtain ⟨s, o, requests, s', hsession, hsearch, hexpected⟩ := Harvest.exists_of_sessionComesTo
    (show Harvest.sessionComesTo World.threeSlots ["defineProps", "defineEmits"] "/w/App.vue"
      (Bytes.ofString twoNames) (fun s' => (s'.graft? ⟨"/w/a.ts", "Base"⟩).any fun e =>
        (s'.files.get? "/w/a.ts").any fun o' =>
        decide (Slots.fill e.declaration.content e.declaration.body.start e.declaration.body.start
            ((s'.bodyReferences ⟨"/w/a.ts", "Base"⟩ e.declaration).map
              fun r => (r.place, s'.reading o' r)) =
          Bytes.ofString "\x7b s: \x7b\x7d; t: G[]; u: Lost \x7d")) = true by decide +kernel)
  obtain ⟨e, he, hexpected⟩ := (Option.any_eq_true _ _).mp hexpected
  obtain ⟨o', ho', hexpected⟩ := (Option.any_eq_true _ _).mp hexpected
  obtain ⟨own, hown, hall⟩ := Harvest.bodies_of_search hsession.session hsearch
  obtain ⟨⟨o₁, body, hbody, hreads⟩, hbound⟩ := hall _ e he
  obtain rfl : o₁ = o' := Option.some.inj (hreads.file.symm.trans ho')
  refine ⟨s, o, requests, s', hsession.session, hsearch, own, hown, ?_, hbound⟩
  rw [hbody, hreads.eq, of_decide_eq_true hexpected]

end TypeGraft
