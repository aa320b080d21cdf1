import TypeGraft.Proofs.Harvest.Linked
import TypeGraft.Splice.Block

/-!
# What is written into the slots

When a reference is resolved, a text may be written into its slot, which is one of the requests or
one of the declaration that holds the reference. The text can be told from the reference and from
what it was resolved to (`TypeGraft.Harvest.filling`), and it stays the same however far the search
goes on. So at any time the slots hold the texts of the references that are resolved, and nothing
else (`TypeGraft.Harvest.Filled`).

Nothing is written for a base with members, which is merged, and nothing where the slot reads like
the text already.
-/

namespace TypeGraft

/-- **What is mentioned is called what stands in its slot.** -/
theorem Outline.Sound.text_of_mem_mentions {o : Outline} (h : o.Sound) {name : String}
    {d : Declaration} (hd : o.declarations.get? name = some d) {m : Mention}
    (hm : m ∈ d.mentions o.source) : o.text m.span = m.name :=
  (Declaration.name_of_mem_mentions
    (fun base hbase => (h.spelled name d hd base hbase).symm) hm).symm

namespace Harvest

variable {world : World} {s s' : Harvest} {ref : RefId} {r r' : Reference} {key : Key}
  {owner : Option Key}

/-! ### Slots and their texts -/

/-- What is written into the slots of a declaration, or into those of the requests. -/
def written (s : Harvest) : Option Key → List Replacement
  | none => s.rootEdits
  | some owner => ((s.graft? owner).map (·.replacements)).getD []

/-- Whether a declaration is left out for a reference. -/
def isLeftOut (s : Harvest) (r : Reference) (key : Key) : Bool :=
  (s.declaration? key).any (s.leavesOut r)

/-- What is written into the slot of a reference that is resolved to a declaration. -/
def filling (s : Harvest) (r : Reference) (key : Key) : Option Replacement :=
  r.span.bind fun span =>
    match r.owner with
    | none =>
      if s.isLeftOut r key = true ∨ s.newNameOf key = r.name then none
      else some ⟨span, s.newNameOf key⟩
    | some owner =>
      if s.isLeftOut r key = true then some ⟨span, "\x7b\x7d"⟩
      else if r.kind = .extends_ ∧ s.hasMembers key = true then none
      else if s.newNameOf key = s.textOf owner.file span then none
      else some ⟨span, s.newNameOf key⟩

theorem newNameOf_of_graft? {e : Graft} (he : s.graft? key = some e) :
    s.newNameOf key = e.newName := by
  rw [newNameOf, he]
  rfl

theorem hasMembers_of_graft? {e : Graft} (he : s.graft? key = some e) :
    s.hasMembers key = e.declaration.hasMembers := by
  rw [hasMembers, he]
  rfl

/-- What is written depends on the mention and on how the declaration is known. -/
theorem filling_congr (hbare : r'.bare = r.bare) (hout : s'.isLeftOut r' key = s.isLeftOut r key)
    (hkept : s.isLeftOut r key = false →
      s'.newNameOf key = s.newNameOf key ∧ s'.hasMembers key = s.hasMembers key)
    (htext : ∀ owner span, r.owner = some owner →
      s'.textOf owner.file span = s.textOf owner.file span) :
    s'.filling r' key = s.filling r key := by
  have hspan : r'.span = r.span := congrArg (fun r => r.span) hbare
  have howner : r'.owner = r.owner := congrArg (fun r => r.owner) hbare
  have hname : r'.name = r.name := congrArg (fun r => r.name) hbare
  have hkind : r'.kind = r.kind := congrArg (fun r => r.kind) hbare
  unfold filling
  rw [hspan, howner, hname, hkind, hout]
  refine congrArg (Option.bind r.span) (funext fun span => ?_)
  cases hleft : s.isLeftOut r key with
  | true =>
    cases r.owner with
    | none => rw [if_pos (Or.inl rfl), if_pos (Or.inl rfl)]
    | some owner => rfl
  | false =>
    obtain ⟨hnew, hmembers⟩ := hkept hleft
    rw [hnew, hmembers]
    cases ho : r.owner with
    | none => rfl
    | some owner =>
      dsimp only
      rw [htext owner span ho]

theorem Keeps.isLeftOut (h : s.Keeps s') (r : Reference) (key : Key) :
    s'.isLeftOut r key = s.isLeftOut r key := by
  rw [Harvest.isLeftOut, Harvest.isLeftOut, h.declaration? key, funext (h.leavesOut r)]

theorem Keeps.newNameOf (h : s.Keeps s') (key : Key) : s'.newNameOf key = s.newNameOf key := by
  cases he : s.graft? key with
  | none =>
    have hnone : s'.graft? key = none := by
      rw [← Option.not_isSome_iff_eq_none, h.isSome_graft?, he]
      simp
    rw [Harvest.newNameOf, Harvest.newNameOf, he, hnone]
  | some e =>
    obtain ⟨e', he', -, hname⟩ := h.graft he
    rw [newNameOf_of_graft? he, newNameOf_of_graft? he', hname]

theorem Keeps.hasMembers (h : s.Keeps s') (key : Key) : s'.hasMembers key = s.hasMembers key := by
  cases he : s.graft? key with
  | none =>
    have hnone : s'.graft? key = none := by
      rw [← Option.not_isSome_iff_eq_none, h.isSome_graft?, he]
      simp
    rw [Harvest.hasMembers, Harvest.hasMembers, he, hnone]
  | some e =>
    obtain ⟨e', he', hd, -⟩ := h.graft he
    rw [hasMembers_of_graft? he, hasMembers_of_graft? he', hd]

/-- Where everything goes by the same name, the same is written. -/
theorem Keeps.filling (h : s.Keeps s') (hbare : r'.bare = r.bare) :
    s'.filling r' key = s.filling r key := by
  have hnested : r'.nested = r.nested := congrArg (fun r => r.nested) hbare
  refine filling_congr hbare ?_ (fun _ => ⟨h.newNameOf key, h.hasMembers key⟩) ?_
  · rw [← h.isLeftOut r key, Harvest.isLeftOut, Harvest.isLeftOut]
    refine congrArg (fun leaves => (s'.declaration? key).any leaves) (funext fun d => ?_)
    rw [Harvest.leavesOut, Harvest.leavesOut, hnested]
  · intro owner span _
    rw [textOf, textOf, h.files]

/-- **What is written for a reference that is resolved** stays the same. -/
theorem Change.filling (hc : Change world s s') (hlinked : s.Linked) (hgrounded : s.Grounded)
    (hr : s.reference? ref = some r) (hg : r.Grows r') (hkey : r.target = some key) :
    s'.filling r' key = s.filling r key := by
  have hnested : r'.nested = r.nested := congrArg (fun r => r.nested) hg.bare
  have hleaves : ∀ d, s'.leavesOut r' d = s.leavesOut r d := by
    intro d
    rw [leavesOut, leavesOut, isEntryFile, isEntryFile, hc.entry, hnested]
  -- what it was resolved to is declared, in a file that was read
  have hout : ∀ d, s.declaration? key = some d → s'.isLeftOut r' key = s.isLeftOut r key := by
    intro d hd
    rw [isLeftOut, isLeftOut, hd, hc.declaration? hd]
    exact hleaves d
  have htext : ∀ owner span, r.owner = some owner →
      s'.textOf owner.file span = s.textOf owner.file span := by
    intro owner span howner
    obtain ⟨e, he⟩ := Option.isSome_iff_exists.mp (hlinked.owner ref r owner hr howner)
    obtain ⟨o, ho, -⟩ := Option.bind_eq_some_iff.mp (hgrounded.graft owner e he)
    rw [textOf, textOf, ho, hc.file ho]
  rcases hlinked.target ref r key hr hkey with ⟨d, hd, hleft⟩ | ⟨e, he, -, -⟩
  · refine filling_congr hg.bare (hout d hd) (fun hkept => ?_) htext
    rw [isLeftOut, hd] at hkept
    exact absurd (hleft.symm.trans hkept) (by simp)
  · refine filling_congr hg.bare (hout _ (hgrounded.graft key e he)) (fun _ => ?_) htext
    obtain ⟨e', he', hd, hname⟩ := hc.graft he
    rw [newNameOf_of_graft? he, newNameOf_of_graft? he', hasMembers_of_graft? he,
      hasMembers_of_graft? he', hd, hname]
    exact ⟨rfl, rfl⟩

/-! ### What each change writes -/

theorem written_modifyGraft (s : Harvest) (k : Key) (owner : Option Key) (change : Graft → Graft)
    (h : ∀ e, (change e).replacements = e.replacements) :
    (s.modifyGraft k change).written owner = s.written owner := by
  cases owner with
  | none => rfl
  | some owner =>
    rw [written, written, graft?, modifyGraft, Table.get?_adjust]
    split
    · rw [Option.map_map]
      exact congrArg (Option.getD · []) (congrFun (congrArg Option.map (funext h)) _)
    · rfl

theorem written_fill {k : Key} (hk : (s.graft? k).isSome) (span : Span) (text : String) :
    (s.fill k span text).written owner =
      s.written owner ++ if owner = some k then [⟨span, text⟩] else [] := by
  cases owner with
  | none => exact (List.append_nil _).symm
  | some owner =>
    obtain ⟨e, he⟩ := Option.isSome_iff_exists.mp hk
    rw [graft?] at he
    rw [written, written, graft?, fill, modifyGraft, Table.get?_adjust, graft?]
    by_cases hsame : k = owner
    · subst hsame
      rw [if_pos rfl, if_pos rfl, he]
      rfl
    · rw [if_neg hsame, if_neg (fun h => hsame (Option.some.inj h).symm), List.append_nil]

theorem written_linkRequest (s : Harvest) (r : Reference) (text : String) :
    (s.linkRequest r text).written owner = s.written owner ++ if owner = none then
      (r.span.bind fun span => if text = r.name then none else some ⟨span, text⟩).toList
      else [] := by
  unfold linkRequest
  cases r.span with
  | none => simp
  | some span =>
    dsimp only
    split
    · simp
    · cases owner <;> simp [written, graft?]

theorem written_linkSlot {k : Key} (hk : (s.graft? k).isSome) (r : Reference) (key : Key)
    (text : String) :
    (s.linkSlot r k key text).written owner = s.written owner ++ if owner = some k then
      (r.span.bind fun span =>
        if text = s.textOf k.file span then none else some ⟨span, text⟩).toList else [] := by
  let noted : Harvest := { s with dependencies := s.dependencies.addEdge k key }
  let change : Graft → Graft := fun e => { e with dependencies := e.dependencies ++ [text] }
  have hnoted : (noted.modifyGraft k change).written owner = s.written owner := by
    rw [written_modifyGraft noted k owner change fun _ => rfl]
    cases owner <;> rfl
  have hgraft : ((noted.modifyGraft k change).graft? k).isSome := by
    rw [graft?, modifyGraft, Table.get?_adjust, if_pos rfl, Option.isSome_map]
    exact hk
  unfold linkSlot
  cases r.span with
  | none =>
    change (noted.modifyGraft k change).written owner = _
    simp [hnoted]
  | some span =>
    change (if text = s.textOf k.file span then noted.modifyGraft k change
      else (noted.modifyGraft k change).fill k span text).written owner = _
    split
    · next hsame => simp [hnoted, hsame]
    · next hother =>
      rw [written_fill hgraft, hnoted]
      simp [hother]

/-- **Linking a reference** writes its text. -/
theorem written_link {e : Graft} (hr : s.reference? ref = some r) (he : s.graft? key = some e)
    (hopen : r.target = none) (hleft : s.isLeftOut r key = false)
    (howner : ∀ k, r.owner = some k → (s.graft? k).isSome) :
    (s.link ref key).written owner =
      s.written owner ++ if owner = r.owner then (s.filling r key).toList else [] := by
  have hresolve : (s.resolve ref key).written owner = s.written owner := by cases owner <;> rfl
  rw [link_of_open hr he hopen]
  unfold filling
  rw [hleft, newNameOf_of_graft? he, hasMembers_of_graft? he]
  cases ho : r.owner with
  | none =>
    dsimp only
    rw [written_linkRequest, hresolve]
    simp
  | some k =>
    dsimp only
    split
    · next hbase =>
      have hparent : ((s.resolve ref key).linkParent ref k key).written owner =
          s.written owner := by
        cases owner <;> rfl
      rw [hparent]
      simp
    · next hbase =>
      have hgraft : ((s.resolve ref key).graft? k).isSome := howner k ho
      rw [written_linkSlot hgraft, hresolve]
      rfl

/-- **Leaving a declaration out** empties the slot of the reference. -/
theorem written_leaveOut (hr : s.reference? ref = some r) (hopen : r.target = none)
    (hleft : s.isLeftOut r key = true) (howner : ∀ k, r.owner = some k → (s.graft? k).isSome) :
    (s.leaveOut ref key).written owner =
      s.written owner ++ if owner = r.owner then (s.filling r key).toList else [] := by
  have hresolve : (s.resolve ref key).written owner = s.written owner := by cases owner <;> rfl
  rw [leaveOut_of_open hr hopen]
  unfold filling
  rw [hleft]
  cases ho : r.owner with
  | none => cases r.span <;> simp [hresolve]
  | some k =>
    cases r.span with
    | none => simp [hresolve]
    | some span =>
      have hgraft : ((s.resolve ref key).graft? k).isSome := howner k ho
      dsimp only
      rw [written_fill hgraft, hresolve]
      rfl

/-! ### What the slots hold -/

/-- **The slots hold what is written for the references that are resolved**, and nothing else. -/
def Filled (s : Harvest) : Prop :=
  ∀ owner x, x ∈ s.written owner ↔ ∃ ref r key, s.reference? ref = some r ∧ r.owner = owner ∧
    r.target = some key ∧ s.filling r key = some x

/-- What is written for a reference of `owner`, if it is resolved. -/
def fillingFor (s : Harvest) (owner : Option Key) (r : Reference) : Option Replacement :=
  if r.owner = owner then r.target.bind (s.filling r) else none

/-- What is written for the references of `owner` that are resolved, in their order. -/
def fillings (s : Harvest) (owner : Option Key) : List Replacement :=
  s.references.filterMap (s.fillingFor owner)

/-- **Each slot is filled once**: what is written is what there is to write for the references that
are resolved, for each of them once. -/
def FilledOnce (s : Harvest) : Prop :=
  ∀ owner, (s.written owner).Perm (s.fillings owner)

theorem FilledOnce.filled (h : s.FilledOnce) : s.Filled := by
  intro owner x
  rw [(h owner).mem_iff, fillings, List.mem_filterMap]
  constructor
  · rintro ⟨r, hr, hx⟩
    obtain ⟨ref, hr⟩ := List.mem_iff_getElem?.mp hr
    rw [fillingFor] at hx
    split at hx
    · next howner =>
      obtain ⟨key, hkey, hx⟩ := Option.bind_eq_some_iff.mp hx
      exact ⟨ref, r, key, hr, howner, hkey, hx⟩
    · exact absurd hx (by simp)
  · rintro ⟨ref, r, key, hr, howner, hkey, hx⟩
    refine ⟨r, List.mem_of_getElem? hr, ?_⟩
    rw [fillingFor, if_pos howner, hkey]
    exact hx

/-- A reference of which nothing new is known. -/
theorem Change.fillingFor (hc : Change world s s') (hlinked : s.Linked) (hgrounded : s.Grounded)
    (hr : s.reference? ref = some r) (hg : r.Grows r') (htarget : r'.target = r.target) :
    s'.fillingFor owner r' = s.fillingFor owner r := by
  have howner : r'.owner = r.owner := congrArg (fun r => r.owner) hg.bare
  rw [Harvest.fillingFor, Harvest.fillingFor, howner, htarget]
  cases hkey : r.target with
  | none => rfl
  | some key =>
    rw [Option.bind_some, Option.bind_some, hc.filling hlinked hgrounded hr hg hkey]

theorem filterMap_set_perm {α : Type} {found : List (Option α)} {i : Nat} (y : Option α)
    (h : found[i]? = some none) :
    ((found.set i y).filterMap id).Perm (found.filterMap id ++ y.toList) := by
  induction found generalizing i with
  | nil => simp at h
  | cons x found ih =>
    cases i with
    | zero =>
      obtain rfl : x = none := by simpa using h
      cases y with
      | none => simp
      | some y => simpa using (List.perm_append_singleton y (found.filterMap id)).symm
    | succ i =>
      have hrest := ih (by simpa using h)
      cases x with
      | none => simpa using hrest
      | some x => simpa using hrest.cons x

/-- A change that resolves nothing and writes nothing. -/
theorem FilledOnce.of_written (h : s.FilledOnce) (hlinked : s.Linked) (hgrounded : s.Grounded)
    (hc : Change world s s') (hwritten : ∀ owner, s'.written owner = s.written owner)
    {references more : List Reference} (hreferences : s'.references = references ++ more)
    (hlength : references.length = s.references.length) (hopen : ∀ r ∈ more, r.target = none)
    (htarget : ∀ ref r r', s.reference? ref = some r → references[ref]? = some r' →
      r.Grows r' ∧ r'.target = r.target) : s'.FilledOnce := by
  intro owner
  have hmore : more.filterMap (s'.fillingFor owner) = [] := by
    refine List.filterMap_eq_nil_iff.mpr fun r hr => ?_
    rw [fillingFor, hopen r hr]
    split <;> rfl
  have hsame : references.map (s'.fillingFor owner) = s.references.map (s.fillingFor owner) := by
    refine List.ext_getElem (by simp [hlength]) fun i hi hi' => ?_
    rw [List.getElem_map, List.getElem_map]
    rw [List.length_map] at hi hi'
    have hr : s.reference? i = some s.references[i] := List.getElem?_eq_getElem hi'
    obtain ⟨hg, ht⟩ := htarget i _ _ hr (List.getElem?_eq_getElem hi)
    exact hc.fillingFor hlinked hgrounded hr hg ht
  have hfillings : s'.fillings owner = s.fillings owner := by
    rw [fillings, fillings, hreferences, List.filterMap_append, hmore, List.append_nil,
      ← Function.id_comp (s'.fillingFor owner), ← List.filterMap_map, hsame, List.filterMap_map,
      Function.id_comp]
  rw [hwritten, hfillings]
  exact h owner

/-- A change that resolves one reference. -/
theorem FilledOnce.resolved (h : s.FilledOnce) (hlinked : s.Linked) (hgrounded : s.Grounded)
    (hc : Change world s s') (hkeeps : s.Keeps s') (hr : s.reference? ref = some r)
    (hopen : r.target = none) (hreferences : s'.references = (s.resolve ref key).references)
    (hwritten : ∀ owner, s'.written owner =
      s.written owner ++ if owner = r.owner then (s.filling r key).toList else []) :
    s'.FilledOnce := by
  intro owner
  let new : Option Replacement := if r.owner = owner then s.filling r key else none
  have hmodify : s'.references = s.references.modify ref fun r => { r with target := some key } :=
    hreferences
  have hset : s'.references.map (s'.fillingFor owner) =
      (s.references.map (s.fillingFor owner)).set ref new := by
    refine List.ext_getElem? fun i => ?_
    rw [List.getElem?_map, hmodify, List.getElem?_modify, List.getElem?_set, List.getElem?_map,
      List.length_map]
    by_cases hi : ref = i
    · subst hi
      rw [if_pos rfl, if_pos (List.getElem?_eq_some_iff.mp hr).1,
        show s.references[ref]? = some r from hr]
      simp only [if_true, Option.map_eq_map, Option.map_some]
      exact congrArg (fun x => some (if r.owner = owner then x else none)) (hkeeps.filling rfl)
    · rw [if_neg hi]
      simp only [if_neg hi, Option.map_eq_map, Option.map_id']
      cases hget : s.references[i]? with
      | none => rfl
      | some r₀ =>
        exact congrArg some (hc.fillingFor hlinked hgrounded hget (Reference.Grows.refl r₀) rfl)
  have hnone : (s.references.map (s.fillingFor owner))[ref]? = some none := by
    rw [List.getElem?_map, show s.references[ref]? = some r from hr, Option.map_some,
      fillingFor, hopen]
    split <;> rfl
  have hnew : (if owner = r.owner then (s.filling r key).toList else []) = new.toList := by
    by_cases howner : r.owner = owner
    · rw [if_pos howner.symm, show new = s.filling r key from if_pos howner]
    · rw [if_neg (Ne.symm howner), show new = none from if_neg howner]
      rfl
  have hid :
      ∀ s : Harvest, s.fillings owner = (s.references.map (s.fillingFor owner)).filterMap id := by
    intro s
    rw [fillings, List.filterMap_map, Function.id_comp]
  rw [hwritten, hid, hset, hnew]
  refine ((h owner).append_right _).trans ?_
  rw [hid s]
  exact (filterMap_set_perm new hnone).symm

/-- **Every change keeps this.** -/
theorem FilledOnce.change (h : s.FilledOnce) (hlinked : s.Linked) (hgrounded : s.Grounded)
    (hc : Change world s s') : s'.FilledOnce := by
  -- most changes resolve no reference; a link and a leaving out resolve one, unless it is resolved
  have hsame : ∀ ref r r', s.reference? ref = some r → s.references[ref]? = some r' →
      r.Grows r' ∧ r'.target = r.target := by
    intro ref r r' hr hr'
    obtain rfl : r = r' := Option.some.inj (hr.symm.trans hr')
    exact ⟨Reference.Grows.refl r, rfl⟩
  have hc' := hc
  cases hc with
  | note | load =>
    exact h.of_written hlinked hgrounded hc' (fun owner => by cases owner <;> rfl)
      (List.append_nil _).symm rfl (fun _ hr => absurd hr List.not_mem_nil) hsame
  | visit ref place =>
    refine h.of_written hlinked hgrounded hc' (fun owner => by cases owner <;> rfl)
      (List.append_nil _).symm (List.length_modify _ _ _)
      (fun _ hr => absurd hr List.not_mem_nil) fun i r r' hr hr' => ?_
    have hr' := (reference?_modifyReference s ref i _).symm.trans hr'
    rw [hr] at hr'
    split at hr'
    · rw [← Option.some.inj hr']
      exact ⟨⟨rfl, fun _ h => h⟩, rfl⟩
    · rw [← Option.some.inj hr']
      exact ⟨Reference.Grows.refl r, rfl⟩
  | mention hnew =>
    exact h.of_written hlinked hgrounded hc' (fun owner => by cases owner <;> rfl) rfl rfl
      (fun r hr => (hnew r hr).1) hsame
  | takeIn request hd hg =>
    obtain ⟨numbers, -, heq⟩ := exists_takeIn s _ request hg
    refine h.of_written hlinked hgrounded hc' (fun owner => ?_)
      (show _ = _ ++ [] by rw [heq, List.append_nil]) rfl
        (fun _ hr => absurd hr List.not_mem_nil) hsame
    cases owner with
    | none => rw [written, written, heq]
    | some k =>
      rw [written, written, graft?_takeIn request hg]
      split
      · next hk => rw [← hk, hg]; rfl
      · rfl
  | @link ref r key e hr he hl =>
    have hsome : (s.graft? key).isSome := by
      rw [he]
      rfl
    cases htarget : r.target with
    | some old =>
      rw [link_of_target hr htarget]
      exact h
    | none =>
      have hreferences := (search_link hr hsome).1
      rw [if_neg (by rw [Reference.isResolved, htarget]; simp)] at hreferences
      have hleft : s.isLeftOut r key = false := by
        rw [isLeftOut, hgrounded.graft key e he]
        exact hl
      exact h.resolved hlinked hgrounded hc' (keeps_link s ref key) hr htarget hreferences
        fun owner => written_link hr he htarget hleft fun k hk => hlinked.owner ref r k hr hk
  | @leaveOut ref r key d hr hd hl =>
    cases htarget : r.target with
    | some old =>
      rw [leaveOut_of_target hr htarget]
      exact h
    | none =>
      have hreferences := (search_leaveOut hr key).1
      rw [if_neg (by rw [Reference.isResolved, htarget]; simp)] at hreferences
      have hleft : s.isLeftOut r key = true := by
        rw [isLeftOut, hd]
        exact hl
      exact h.resolved hlinked hgrounded hc' (keeps_leaveOut s ref key) hr htarget hreferences
        fun owner => written_leaveOut hr htarget hleft fun k hk => hlinked.owner ref r k hr hk

theorem FilledOnce.changes (h : s.FilledOnce) (hlinked : s.Linked) (hgrounded : s.Grounded)
    (hc : Changes world s s') : s'.FilledOnce := by
  induction hc with
  | refl => exact h
  | tail hbefore hstep ih =>
    exact ih.change (hlinked.changes hbefore) (hgrounded.changes hbefore) hstep

end Harvest

end TypeGraft
