import TypeGraft.Proofs.Harvest.Binding
import TypeGraft.Proofs.Lookup

/-!
# Looking for a name in a file

What `TypeGraft.Harvest.look` can come to, one case for each answer that the file may give
(`TypeGraft.Harvest.Looks`). A search never takes in anything but what the files declare, so
what was found before does not change the answer.
-/

namespace TypeGraft

/-- The place at which a file is asked for a name. -/
def Query.placeIn (q : Query) (o : Outline) : Waypoint := ⟨o.path, q.name, q.external⟩

namespace Harvest

variable {s : Harvest} {o : Outline} {q : Query} {world : World}

/-- The names with one more reference that waits at a place, and the name that it waits for. -/
def arrival (s : Harvest) (o : Outline) (q : Query) (r : Reference) : Synonyms × SynonymId :=
  s.synonyms.wait false q.ref (q.placeIn o) (shownLine o q.name r)

/-- The harvest when a reference has come to a place. -/
def arrive (s : Harvest) (o : Outline) (q : Query) (r : Reference) : Harvest :=
  { s.modifyReference q.ref fun r => { r with waypoints := r.waypoints ++ [q.placeIn o] } with
    synonyms := (s.arrival o q r).1 }

/-- The name in a request, for the declaration that it asks for. -/
def requestOf (r : Reference) : Option String := if r.kind = .root then some r.name else none

/-- The harvest when a reference was given a declaration whose members are left out. -/
def giveUp (s : Harvest) (ref : RefId) (key : Key) : Harvest :=
  { s.leaveOut ref key with synonyms := (s.leaveOut ref key).synonyms.settle ref key }

/-- A reference that has yet to come to a place. -/
structure Fresh (s : Harvest) (o : Outline) (q : Query) (r : Reference) : Prop where
  reference : s.reference? q.ref = some r
  unresolved : r.target = none
  unseen : q.placeIn o ∉ r.waypoints

/-- **What looking for a name in a file comes to.** -/
inductive Looks (s : Harvest) (o : Outline) (q : Query) : Harvest → Found → Prop where
  /-- Nothing is to be done for a reference that is resolved or was here before. -/
  | passed (h : ∀ r, ¬s.Fresh o q r) : Looks s o q s .settled
  /-- The file says where the name comes from. -/
  | elsewhere {r binding} (hr : s.Fresh o q r)
      (ha : o.answer q.name q.external = .elsewhere binding) :
      Looks s o q (s.arrive o q r) (.elsewhere binding)
  /-- The name may come from a module of which all is exported. -/
  | starred {r} (hr : s.Fresh o q r) (ha : o.answer q.name q.external = .starred) :
      Looks s o q (s.arrive o q r) .starred
  /-- The file knows nothing of the name. -/
  | unknown {r} (hr : s.Fresh o q r) (ha : o.answer q.name q.external = .unknown) :
      Looks s o q ((s.arrive o q r).log [.notFound r.file r.line r.name]) .settled
  /-- The declaration is found, and its members are left out. -/
  | leftOut {r d} (hr : s.Fresh o q r) (ha : o.answer q.name q.external = .declared d)
      (hl : s.leavesOut r d = true) :
      Looks s o q ((s.arrive o q r).giveUp q.ref d.key) .settled
  /-- The declaration was taken in before. -/
  | again {r d} (hr : s.Fresh o q r) (ha : o.answer q.name q.external = .declared d)
      (hl : s.leavesOut r d = false) (hg : (s.graft? d.key).isSome) :
      Looks s o q ((s.arrive o q r).fulfil (s.arrival o q r).2 d.key) .settled
  /-- The declaration is taken in. -/
  | first {r d} (hr : s.Fresh o q r) (ha : o.answer q.name q.external = .declared d)
      (hl : s.leavesOut r d = false) (hg : s.graft? d.key = none) :
      Looks s o q ((s.arrive o q r).meet o d (s.arrival o q r).2 (requestOf r)).1
        (.declared ((s.arrive o q r).meet o d (s.arrival o q r).2 (requestOf r)).2)

/-- What is done about an answer. -/
def answered (s : Harvest) (o : Outline) (q : Query) (r : Reference) (record : SynonymId) :
    Answer → Harvest × Found
  | .declared d =>
    if s.leavesOut r d then (s.giveUp q.ref d.key, .settled)
    else if (s.graft? d.key).isSome then (s.fulfil record d.key, .settled)
    else ((s.meet o d record (requestOf r)).1, .declared (s.meet o d record (requestOf r)).2)
  | .elsewhere binding => (s, .elsewhere binding)
  | .starred => (s, .starred)
  | .unknown => (s.log [.notFound r.file r.line r.name], .settled)

/-- What a file declares is what was taken in from it. -/
def Mirrors (s : Harvest) (o : Outline) : Prop :=
  ∀ name e, s.graft? ⟨o.path, name⟩ = some e → o.declarations.get? name = some e.declaration

theorem Grounded.mirrors (h : s.Grounded) (hfile : s.files.get? o.path = some o) :
    s.Mirrors o := by
  intro name e he
  have hd := h.graft _ e he
  rw [declaration?, hfile] at hd
  exact hd

theorem findDeclared_eq (hw : o.WellFormed) (hm : s.Mirrors o) (r : Reference)
    (record : SynonymId) (name : String) :
    s.findDeclared o q r record name =
      s.answered o q r record (o.ownAnswer q.external name) := by
  have hor : ((s.graft? ⟨o.path, name⟩).map (·.declaration)).or (o.declarations.get? name) =
      o.declarations.get? name := by
    cases hg : s.graft? ⟨o.path, name⟩ with
    | none => rfl
    | some e => rw [hm name e hg]; rfl
  unfold findDeclared Outline.ownAnswer
  dsimp only
  rw [hor]
  cases hd : o.declarations.get? name with
  | none =>
    dsimp only
    cases hi : o.imports.get? name with
    | some binding => rfl
    | none =>
      dsimp only
      split <;> rfl
  | some d =>
    have hkey : d.key = ⟨o.path, name⟩ := hw name d hd
    dsimp only
    rw [answered, ← hkey]
    split
    · rfl
    · split <;> rfl

/-- A reference that has yet to come to a place comes there, and then the file is asked. -/
theorem look_of_fresh {r : Reference} (hr : s.Fresh o q r) :
    s.look o q =
      if q.external then
        match o.exports.get? q.name with
        | some name => (s.arrive o q r).findDeclared o q r (s.arrival o q r).2 name
        | none =>
          match o.reexports.get? q.name with
          | some binding =>
            if o.declarations.has q.name then
              (s.arrive o q r).findDeclared o q r (s.arrival o q r).2 q.name
            else (s.arrive o q r, .elsewhere binding)
          | none => (s.arrive o q r).findDeclared o q r (s.arrival o q r).2 q.name
      else (s.arrive o q r).findDeclared o q r (s.arrival o q r).2 q.name := by
  have hfresh : ¬(r.isResolved ∨ (⟨o.path, q.name, q.external⟩ : Waypoint) ∈ r.waypoints) := by
    rintro (h | h)
    · rw [Reference.isResolved, hr.unresolved] at h
      exact absurd h (by simp)
    · exact hr.unseen h
  rw [look, hr.reference]
  exact if_neg hfresh

theorem look_of_not_fresh (h : ¬∃ r, s.Fresh o q r) : s.look o q = (s, .settled) := by
  unfold look
  cases hr : s.reference? q.ref with
  | none => rfl
  | some r =>
    dsimp only
    rw [if_pos]
    by_contra hneither
    refine h ⟨r, hr, ?_, fun h => hneither (Or.inr h)⟩
    cases ht : r.target with
    | none => rfl
    | some key => exact absurd (Or.inl (by rw [Reference.isResolved, ht]; rfl)) hneither

theorem look_eq {r : Reference} (hw : o.WellFormed) (hm : s.Mirrors o) (hr : s.Fresh o q r) :
    s.look o q = (s.arrive o q r).answered o q r (s.arrival o q r).2
      (o.answer q.name q.external) := by
  have hm' : (s.arrive o q r).Mirrors o := fun name e he => hm name e he
  have hdeclared : ∀ name external, q.external = external →
      (s.arrive o q r).findDeclared o q r (s.arrival o q r).2 name =
        (s.arrive o q r).answered o q r (s.arrival o q r).2 (o.ownAnswer external name) := by
    rintro name _ rfl
    exact findDeclared_eq hw hm' r _ name
  rw [look_of_fresh hr, Outline.answer]
  split
  · next hext =>
    cases o.exports.get? q.name with
    | some name => exact hdeclared name true hext
    | none =>
      cases o.reexports.get? q.name with
      | none => exact hdeclared q.name true hext
      | some binding =>
        dsimp only
        split
        · exact hdeclared q.name true hext
        · rfl
  · next hext => exact hdeclared q.name false (by simpa using hext)

/-- **Looking for a name comes to one of the cases.** -/
theorem looks_look (hw : o.WellFormed) (hm : s.Mirrors o) (q : Query) :
    Looks s o q (s.look o q).1 (s.look o q).2 := by
  by_cases hfresh : ∃ r, s.Fresh o q r
  · obtain ⟨r, hr⟩ := hfresh
    have hleaves : ∀ d, (s.arrive o q r).leavesOut r d = s.leavesOut r d := fun _ => rfl
    rw [look_eq hw hm hr]
    cases ha : o.answer q.name q.external with
    | elsewhere binding => exact Looks.elsewhere hr ha
    | starred => exact Looks.starred hr ha
    | unknown => exact Looks.unknown hr ha
    | declared d =>
      rw [answered, hleaves]
      split
      · next hl => exact Looks.leftOut hr ha hl
      · next hl =>
        have hl : s.leavesOut r d = false := by simpa using hl
        split
        · next hg => exact Looks.again hr ha hl hg
        · next hg => exact Looks.first hr ha hl (Option.not_isSome_iff_eq_none.mp hg)
  · rw [look_of_not_fresh hfresh]
    exact Looks.passed fun r hr => hfresh ⟨r, hr⟩

end Harvest

end TypeGraft
