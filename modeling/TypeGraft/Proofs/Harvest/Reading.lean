import TypeGraft.Resolution
import TypeGraft.Splice
import TypeGraft.Proofs.Harvest.Tracking
import TypeGraft.Proofs.Splice.Merge

/-!
# What taking references in does not look at

Of all that a harvest holds, two fields are never looked at while references are taken in, linked
and left out: how strict it is, and what it has read. `TypeGraft.Harvest.under` is the harvest with
other such fields, and every change of a harvest comes to the same before and after it. Runs that
differ in nothing else go side by side because of that, until a file is asked for.
-/

namespace TypeGraft

namespace Harvest

variable {s : Harvest}

/-- A harvest that is as strict as is said, and has read what is said. -/
def under (s : Harvest) (strict : Bool) (reads : List String) : Harvest := { s with strict, reads }

variable (s : Harvest) (strict : Bool) (reads : List String)

theorem reference?_under (ref : RefId) :
    (s.under strict reads).reference? ref = s.reference? ref := rfl

theorem graft?_under (key : Key) : (s.under strict reads).graft? key = s.graft? key := rfl

theorem under_ite (c : Prop) [Decidable c] (a b : Harvest) :
    (if c then a else b).under strict reads =
      if c then a.under strict reads else b.under strict reads :=
  apply_ite (fun s : Harvest => s.under strict reads) c a b

theorem nameFor_under (d : Declaration) (request : Option String) :
    (s.under strict reads).nameFor d request =
      ((s.nameFor d request).1.under strict reads, (s.nameFor d request).2) := by
  unfold nameFor under isEntryFile
  dsimp only
  repeat' split
  all_goals rfl

theorem takeIn_under (d : Declaration) (request : Option String) :
    (s.under strict reads).takeIn d request =
      ((s.takeIn d request).1.under strict reads, (s.takeIn d request).2) := by
  unfold takeIn
  rw [nameFor_under]
  rfl

theorem linkRequest_under (r : Reference) (newName : String) :
    (s.under strict reads).linkRequest r newName =
      (s.linkRequest r newName).under strict reads := by
  unfold linkRequest
  split
  · split <;> rfl
  · rfl

theorem linkSlot_under (r : Reference) (owner key : Key) (newName : String) :
    (s.under strict reads).linkSlot r owner key newName =
      (s.linkSlot r owner key newName).under strict reads := by
  unfold linkSlot
  cases r.span with
  | none => rfl
  | some span =>
    dsimp only
    rw [under_ite]
    rfl

theorem link_under (ref : RefId) (key : Key) :
    (s.under strict reads).link ref key = (s.link ref key).under strict reads := by
  have hresolve : (s.under strict reads).resolve ref key = (s.resolve ref key).under strict reads :=
    rfl
  unfold link
  rw [reference?_under, graft?_under]
  cases s.reference? ref with
  | none => rfl
  | some r =>
    cases s.graft? key with
    | none => rfl
    | some target =>
      dsimp only
      rw [under_ite, hresolve]
      cases r.owner with
      | none => rw [← linkRequest_under]
      | some owner =>
        dsimp only
        rw [under_ite, ← linkSlot_under]
        rfl

theorem leaveOut_under (ref : RefId) (key : Key) :
    (s.under strict reads).leaveOut ref key = (s.leaveOut ref key).under strict reads := by
  unfold leaveOut
  rw [reference?_under]
  cases s.reference? ref with
  | none => rfl
  | some r =>
    dsimp only
    rw [under_ite]
    cases r.owner <;> cases r.span <;> rfl

theorem deliver_under (d : Declaration) (key : Key) (ref : RefId) :
    (s.under strict reads).deliver d key ref = (s.deliver d key ref).under strict reads := by
  unfold deliver
  rw [reference?_under]
  cases s.reference? ref with
  | none => rfl
  | some r =>
    dsimp only
    rw [under_ite, ← leaveOut_under, ← link_under]
    rfl

theorem release_under (d : Declaration) (key : Key) (id : SynonymId) (work : List SynonymId) :
    release d key id work (s.under strict reads) =
      ((release d key id work s).1.under strict reads, (release d key id work s).2) := by
  have hall : ∀ (ready : List RefId) (s : Harvest) (work : List SynonymId),
      ready.foldl (fun p ref =>
        (p.1.deliver d key ref, p.2 ++ (p.1.deliver d key ref).openRecords ref p.2))
          (s.under strict reads, work) =
        ((ready.foldl (fun p ref =>
          (p.1.deliver d key ref, p.2 ++ (p.1.deliver d key ref).openRecords ref p.2))
            (s, work)).1.under strict reads,
          (ready.foldl (fun p ref =>
            (p.1.deliver d key ref, p.2 ++ (p.1.deliver d key ref).openRecords ref p.2))
              (s, work)).2) := by
    intro ready
    induction ready with
    | nil => exact fun s work => rfl
    | cons ref ready ih =>
      intro s work
      rw [List.foldl_cons, deliver_under]
      exact ih _ _
  let identified := s.synonyms.identify s.isResolved id key
  exact hall identified.2.1
    { s with synonyms := identified.1, events := s.events ++ identified.2.2 } work

theorem fulfilAll_under (d : Declaration) (key : Key) (steps : Nat) (work : List SynonymId) :
    fulfilAll d key steps work (s.under strict reads) =
      (fulfilAll d key steps work s).under strict reads := by
  induction steps generalizing s work with
  | zero => rfl
  | succ steps ih =>
    rw [fulfilAll_succ, fulfilAll_succ]
    cases work.getLast? with
    | none => rfl
    | some id =>
      dsimp only
      rw [release_under, ih]

theorem fulfil_under (id : SynonymId) (key : Key) :
    (s.under strict reads).fulfil id key = (s.fulfil id key).under strict reads := by
  unfold fulfil
  rw [graft?_under]
  cases s.graft? key with
  | none => rfl
  | some target => exact fulfilAll_under s strict reads _ _ _ _

/-- The last part of taking in a declaration: the names that it mentions are to be looked for. -/
def askMentions (s : Harvest) (o : Outline) (d : Declaration) : Harvest × List Query :=
  let after := (s.addReferences (mentioned o d)).1
  let bases := (((d.freeMentions o.source).zip (s.addReferences (mentioned o d)).2).filter
    fun m => m.1.kind == .extends_).map (·.2)
  (if bases.isEmpty then after
    else { after with parentRefs := after.parentRefs.adjust (· ++ bases) d.key },
    asked o d s.references.length)

theorem meet_eq (o : Outline) (d : Declaration) (record : SynonymId) (request : Option String) :
    s.meet o d record request = ((s.tookIn d request).fulfil record d.key).askMentions o d := rfl

theorem meet_under (o : Outline) (d : Declaration) (record : SynonymId) (request : Option String) :
    (s.under strict reads).meet o d record request =
      ((s.meet o d record request).1.under strict reads, (s.meet o d record request).2) := by
  have htook : (s.under strict reads).tookIn d request =
      (s.tookIn d request).under strict reads := by
    unfold tookIn
    rw [takeIn_under, under_ite]
    rfl
  rw [meet_eq, meet_eq, htook, fulfil_under]
  unfold askMentions
  dsimp only
  rw [under_ite]
  rfl

theorem findDeclared_under (o : Outline) (q : Query) (r : Reference) (record : SynonymId)
    (name : String) : (s.under strict reads).findDeclared o q r record name =
      ((s.findDeclared o q r record name).1.under strict reads,
        (s.findDeclared o q r record name).2) := by
  unfold findDeclared
  dsimp only
  rw [graft?_under]
  cases ((s.graft? ⟨o.path, name⟩).map (·.declaration)).or (o.declarations.get? name) with
  | none =>
    dsimp only
    cases o.imports.get? name with
    | some binding => rfl
    | none =>
      dsimp only
      split <;> rfl
  | some d =>
    have hleaves : (s.under strict reads).leavesOut r d = s.leavesOut r d := rfl
    dsimp only
    rw [hleaves, leaveOut_under, fulfil_under, meet_under]
    split
    · rfl
    · split <;> rfl

theorem look_under (o : Outline) (q : Query) : (s.under strict reads).look o q =
    ((s.look o q).1.under strict reads, (s.look o q).2) := by
  by_cases hfresh : ∃ r, s.Fresh o q r
  · obtain ⟨r, hr⟩ := hfresh
    have hr' : (s.under strict reads).Fresh o q r := ⟨hr.reference, hr.unresolved, hr.unseen⟩
    have hfound :
        ∀ record name, ((s.under strict reads).arrive o q r).findDeclared o q r record name =
        (((s.arrive o q r).findDeclared o q r record name).1.under strict reads,
          ((s.arrive o q r).findDeclared o q r record name).2) :=
      fun record name => findDeclared_under (s.arrive o q r) strict reads o q r record name
    have harrival : (s.under strict reads).arrival o q r = s.arrival o q r := rfl
    rw [look_of_fresh hr, look_of_fresh hr', harrival]
    simp only [hfound]
    split
    · cases o.exports.get? q.name with
      | some name => rfl
      | none =>
        cases o.reexports.get? q.name with
        | none => rfl
        | some binding =>
          dsimp only
          split <;> rfl
    · rfl
  · have hfresh' : ¬∃ r, (s.under strict reads).Fresh o q r := by
      rintro ⟨r, hr⟩
      exact hfresh ⟨r, hr.reference, hr.unresolved, hr.unseen⟩
    rw [look_of_not_fresh hfresh, look_of_not_fresh hfresh']

/-! ### Splicing -/

theorem inheritDependencies_under (key : Key) : (s.under strict reads).inheritDependencies key =
    (s.inheritDependencies key).under strict reads := by
  have hancestors : (s.under strict reads).ancestors = s.ancestors := ancestors_congr rfl rfl
  unfold inheritDependencies
  rw [hancestors]
  exact List.foldl_hom (fun s : Harvest => s.under strict reads) fun _ _ => rfl

theorem absorbParents_under (orders : Orders) (own : Table Key Bytes) :
    (s.under strict reads).absorbParents orders own =
      ((s.absorbParents orders own).1.under strict reads, (s.absorbParents orders own).2) := by
  refine Prod.ext ?_ (absorbParents_congr s (s.under strict reads) orders own rfl rfl)
  exact List.foldl_hom (fun s : Harvest => s.under strict reads)
    fun s key => inheritDependencies_under s strict reads key

theorem splice_under (orders : Orders) (clean : Cleaning) :
    (s.under strict reads).splice orders clean =
      (s.splice orders clean).map fun p => (p.1.under strict reads, p.2) := by
  have hbodies : (s.under strict reads).filledBodies = s.filledBodies := rfl
  unfold splice
  rw [hbodies]
  cases s.filledBodies with
  | error failure => rfl
  | ok own =>
    dsimp only
    rw [absorbParents_under]
    have hblock : ∀ (s : Harvest) (bodies : Table Key Bytes) (keys : List Key),
        (s.under strict reads).block bodies keys = s.block bodies keys := fun _ _ _ => rfl
    have hkeys : ∀ s : Harvest, (s.under strict reads).blockKeys orders = s.blockKeys orders :=
      fun _ => rfl
    dsimp only
    rw [hblock, hkeys]
    cases (s.absorbParents orders own).1.block (s.absorbParents orders own).2
        ((s.absorbParents orders own).1.blockKeys orders) with
    | error failure => rfl
    | ok block =>
      dsimp only [Except.map]
      split <;> rfl

end Harvest
end TypeGraft
