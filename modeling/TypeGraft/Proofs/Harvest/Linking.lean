import TypeGraft.Harvest.Binding

/-!
# Resolving one reference

What becomes of a reference that is linked (`TypeGraft.Harvest.Linking`), or whose declaration is
left out (`TypeGraft.Harvest.LeavingOut`): the cases in which anything is done, with what they hold.
Neither does anything to a reference that is resolved.

Both change only the parts of a harvest that are named in `TypeGraft.Harvest.exists_link` and
`TypeGraft.Harvest.exists_leaveOut`, so that all others are what they were.
-/

namespace TypeGraft.Harvest

variable {s s' : Harvest} {ref : RefId} {key : Key} {r : Reference}

/-! ### The parts of a link -/

/-- Linking the reference of a request writes into the slots of the requests. -/
theorem exists_linkRequest (s : Harvest) (r : Reference) (newName : String) :
    ∃ rootEdits, s.linkRequest r newName = { s with rootEdits } := by
  unfold linkRequest
  split
  · split
    · exact ⟨s.rootEdits, rfl⟩
    · exact ⟨_, rfl⟩
  · exact ⟨s.rootEdits, rfl⟩

/-- Linking a reference in a declaration notes that the declaration depends on what it refers to,
and writes into its slots. -/
theorem exists_linkSlot (s : Harvest) (r : Reference) (owner key : Key) (newName : String) :
    ∃ grafts, s.linkSlot r owner key newName =
      { s with grafts, dependencies := s.dependencies.addEdge owner key } := by
  unfold linkSlot
  dsimp only
  split
  · split <;> exact ⟨_, rfl⟩
  · exact ⟨_, rfl⟩

/-! ### Linking -/

/-- **What comes of linking a reference** to what was found. -/
inductive Linking (s : Harvest) (ref : RefId) (key : Key) : Harvest → Prop where
  /-- There is nothing to link, or the reference is resolved. -/
  | idle (h : ∀ r e, s.reference? ref = some r → s.graft? key = some e → r.target ≠ none) :
      Linking s ref key s
  /-- The reference of a request gets the name of the declaration. -/
  | request {r : Reference} {e : Graft} (hr : s.reference? ref = some r)
      (he : s.graft? key = some e) (hopen : r.target = none) (howner : r.owner = none) :
      Linking s ref key ((s.resolve ref key).linkRequest r e.newName)
  /-- A base with members is noted as a base. -/
  | parent {r : Reference} {e : Graft} {owner : Key} (hr : s.reference? ref = some r)
      (he : s.graft? key = some e) (hopen : r.target = none) (howner : r.owner = some owner)
      (hbase : r.kind = .extends_ ∧ e.declaration.hasMembers = true) :
      Linking s ref key ((s.resolve ref key).linkParent ref owner key)
  /-- Any other reference in a declaration gets the name of what it refers to. -/
  | slot {r : Reference} {e : Graft} {owner : Key} (hr : s.reference? ref = some r)
      (he : s.graft? key = some e) (hopen : r.target = none) (howner : r.owner = some owner)
      (hslot : ¬(r.kind = .extends_ ∧ e.declaration.hasMembers = true)) :
      Linking s ref key ((s.resolve ref key).linkSlot r owner key e.newName)

theorem linking_of_link (h : s.link ref key = s') : Linking s ref key s' := by
  subst h
  unfold link
  split
  · next r e hr he =>
    split
    · next hres =>
      refine .idle fun r' e' hr' _ => ?_
      rw [← Option.some.inj (hr.symm.trans hr')]
      exact Option.ne_none_iff_isSome.mpr hres
    · next hres =>
      have hopen : r.target = none := Option.not_isSome_iff_eq_none.mp hres
      dsimp only
      split
      · next howner => exact .request hr he hopen howner
      · next owner howner =>
        split
        · next hbase => exact .parent hr he hopen howner hbase
        · next hslot => exact .slot hr he hopen howner hslot
  · next hnone => exact .idle fun r e hr he => (hnone r e hr he).elim

/-- A reference that is resolved stays as it is. -/
theorem link_of_target {old : Key} (hr : s.reference? ref = some r)
    (htarget : r.target = some old) :
    s.link ref key = s := by
  have hres : r.isResolved = true := Option.isSome_of_eq_some htarget
  unfold link
  rw [hr]
  cases s.graft? key with
  | none => rfl
  | some e => exact if_pos hres

theorem link_of_none (h : s.reference? ref = none ∨ s.graft? key = none) : s.link ref key = s := by
  generalize hlink : s.link ref key = s'
  cases linking_of_link hlink with
  | idle => rfl
  | request hr he | parent hr he | slot hr he => simp [hr, he] at h

theorem link_of_open {e : Graft} (hr : s.reference? ref = some r) (he : s.graft? key = some e)
    (hopen : r.target = none) : s.link ref key =
      match r.owner with
      | none => (s.resolve ref key).linkRequest r e.newName
      | some owner =>
        if r.kind = .extends_ ∧ e.declaration.hasMembers = true then
          (s.resolve ref key).linkParent ref owner key
        else (s.resolve ref key).linkSlot r owner key e.newName := by
  have hres : ¬r.isResolved = true := Option.not_isSome_iff_eq_none.mpr hopen
  unfold link
  rw [hr, he]
  exact if_neg hres

/-- **What linking a reference leaves alone** is all but this. -/
theorem exists_link (s : Harvest) (ref : RefId) (key : Key) :
    ∃ references grafts rootEdits dependencies inherits parentOrder, s.link ref key =
      { s with references, grafts, rootEdits, dependencies, inherits, parentOrder } := by
  generalize hlink : s.link ref key = s'
  cases linking_of_link hlink with
  | idle => exact ⟨_, _, _, _, _, _, rfl⟩
  | @request r e =>
    obtain ⟨rootEdits, heq⟩ := exists_linkRequest (s.resolve ref key) r e.newName
    rw [heq]
    exact ⟨_, _, _, _, _, _, rfl⟩
  | parent => exact ⟨_, _, _, _, _, _, rfl⟩
  | @slot r e owner =>
    obtain ⟨grafts, heq⟩ := exists_linkSlot (s.resolve ref key) r owner key e.newName
    rw [heq]
    exact ⟨_, _, _, _, _, _, rfl⟩

/-! ### Leaving out -/

/-- **What comes of leaving a declaration out.** -/
inductive LeavingOut (s : Harvest) (ref : RefId) (key : Key) : Harvest → Prop where
  /-- There is no reference, or it is resolved. -/
  | idle (h : ∀ r, s.reference? ref = some r → r.target ≠ none) : LeavingOut s ref key s
  /-- The reference has no slot in a declaration. -/
  | bare {r : Reference} (hr : s.reference? ref = some r) (hopen : r.target = none)
      (hslot : ∀ owner span, r.owner = some owner → r.span ≠ some span) :
      LeavingOut s ref key (s.resolve ref key)
  /-- The slot of the reference gets an empty object type. -/
  | slot {r : Reference} {owner : Key} {span : Span} (hr : s.reference? ref = some r)
      (hopen : r.target = none) (howner : r.owner = some owner) (hspan : r.span = some span) :
      LeavingOut s ref key ((s.resolve ref key).fill owner span "\x7b\x7d")

theorem leavingOut_of_leaveOut (h : s.leaveOut ref key = s') : LeavingOut s ref key s' := by
  subst h
  unfold leaveOut
  split
  · next r hr =>
    split
    · next hres =>
      refine .idle fun r' hr' => ?_
      rw [← Option.some.inj (hr.symm.trans hr')]
      exact Option.ne_none_iff_isSome.mpr hres
    · next hres =>
      have hopen : r.target = none := Option.not_isSome_iff_eq_none.mp hres
      dsimp only
      split
      · next owner span howner hspan => exact .slot hr hopen howner hspan
      · next hslot => exact .bare hr hopen hslot
  · next hnone =>
    refine .idle fun r hr => ?_
    rw [hnone] at hr
    exact absurd hr (by simp)

theorem leaveOut_of_target {old : Key} (hr : s.reference? ref = some r)
    (htarget : r.target = some old) :
    s.leaveOut ref key = s := by
  have hres : r.isResolved = true := Option.isSome_of_eq_some htarget
  unfold leaveOut
  rw [hr]
  exact if_pos hres

theorem leaveOut_of_none (h : s.reference? ref = none) : s.leaveOut ref key = s := by
  generalize hleave : s.leaveOut ref key = s'
  cases leavingOut_of_leaveOut hleave with
  | idle => rfl
  | bare hr | slot hr => simp [hr] at h

theorem leaveOut_of_open (hr : s.reference? ref = some r) (hopen : r.target = none) :
    s.leaveOut ref key =
    match r.owner, r.span with
    | some owner, some span => (s.resolve ref key).fill owner span "\x7b\x7d"
    | _, _ => s.resolve ref key := by
  have hres : ¬r.isResolved = true := Option.not_isSome_iff_eq_none.mpr hopen
  unfold leaveOut
  rw [hr]
  exact if_neg hres

theorem exists_leaveOut (s : Harvest) (ref : RefId) (key : Key) :
    ∃ references grafts, s.leaveOut ref key = { s with references, grafts } := by
  generalize hleave : s.leaveOut ref key = s'
  cases leavingOut_of_leaveOut hleave with
  | idle => exact ⟨_, _, rfl⟩
  | bare => exact ⟨_, _, rfl⟩
  | slot => exact ⟨_, _, rfl⟩

/-! ### Either -/

/-- **What resolving a reference leaves alone**, one way or the other. -/
theorem exists_deliver (s : Harvest) (d : Declaration) (key : Key) (ref : RefId) :
    ∃ references grafts rootEdits dependencies inherits parentOrder, s.deliver d key ref =
      { s with references, grafts, rootEdits, dependencies, inherits, parentOrder } := by
  unfold deliver
  split
  · split
    · obtain ⟨references, grafts, heq⟩ := exists_leaveOut s ref key
      rw [heq]
      exact ⟨_, _, _, _, _, _, rfl⟩
    · exact exists_link s ref key
  · exact ⟨_, _, _, _, _, _, rfl⟩

end TypeGraft.Harvest
