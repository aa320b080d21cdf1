import Mathlib.Logic.Relation
import TypeGraft.Resolution

/-!
# What a name denotes

The meaning of a name in a file, without regard to how a search goes about it.

* `TypeGraft.Outline.answer`: what one file says of a name.
* `TypeGraft.Lookup`: the way of one name through the files, with all its branches, and what it
  comes to. Nothing in it depends on other names that are looked for at the same time.
* `TypeGraft.Hop`: one step from a place to a place, of those that a lookup may take.

**A lookup is a walk in depth.** It has a list of errands and takes them in order; a place
that it comes to puts its own errands in front. A place that it was at before counts for
nothing, and neither does a module that is not there. So the first declaration that it comes to
is the one that the name denotes. A walk that ends without one has been everywhere
(`TypeGraft.Lookup.not_declares`): leaving out places that were visited loses nothing.
-/

namespace TypeGraft

/-- What a file says of a name. -/
inductive Answer where
  /-- It is declared here. -/
  | declared (d : Declaration)
  /-- It comes from another module. -/
  | elsewhere (binding : Binding)
  /-- It may be one of the names of which the file does not say where they come from. -/
  | starred
  /-- The file knows nothing of it. -/
  | unknown

/-- Something that a lookup has to do yet. -/
inductive Errand where
  /-- Look at a place. -/
  | visit (place : Waypoint)
  /-- Look for a name in the module that a specifier in a file leads to. -/
  | follow (origin specifier name : String)
deriving DecidableEq, Repr

namespace Outline

variable (o : Outline)

/-- What a file says of a name in its own scope, where it was asked for from inside or from
outside of the file. -/
def ownAnswer (external : Bool) (name : String) : Answer :=
  match o.declarations.get? name with
  | some d => .declared d
  | none =>
    match o.imports.get? name with
    | some binding => .elsewhere binding
    | none => if external && !o.starExports.isEmpty then .starred else .unknown

/-- What a file says of a name. From outside, a name may be one that the file exports under
another name, or passes on. -/
def answer (name : String) (external : Bool) : Answer :=
  if external then
    match o.exports.get? name with
    | some own => o.ownAnswer true own
    | none =>
      match o.reexports.get? name with
      | some binding =>
        if o.declarations.has name then o.ownAnswer true name else .elsewhere binding
      | none => o.ownAnswer true name
  else o.ownAnswer false name

/-- Where a file sends those that ask for a name. -/
def errands (name : String) (external : Bool) : List Errand :=
  match o.answer name external with
  | .declared _ | .unknown => []
  | .elsewhere binding => [.follow o.path binding.specifier binding.foreignName]
  | .starred => o.starExports.map (.follow o.path · name)

variable {o}

theorem external_of_starred {name : String} {external : Bool}
    (h : o.answer name external = .starred) : external = true := by
  cases external with
  | true => rfl
  | false =>
    simp only [answer, Bool.false_eq_true, if_false, ownAnswer, Bool.false_and] at h
    split at h
    · exact absurd h (by simp)
    · split at h <;> exact absurd h (by simp)

theorem get?_of_ownAnswer {name : String} {external : Bool} {d : Declaration}
    (h : o.ownAnswer external name = .declared d) : o.declarations.get? name = some d := by
  unfold ownAnswer at h
  split at h
  · next d' hd' =>
    rw [hd', Answer.declared.inj h]
  · split at h
    · exact absurd h (by simp)
    · split at h <;> exact absurd h (by simp)

/-- A declaration that a file answers with stands in the file. -/
theorem exists_get?_of_answer {name : String} {external : Bool} {d : Declaration}
    (h : o.answer name external = .declared d) : ∃ own, o.declarations.get? own = some d := by
  unfold answer at h
  split at h
  · split at h
    · exact ⟨_, get?_of_ownAnswer h⟩
    · split at h
      · split at h
        · exact ⟨_, get?_of_ownAnswer h⟩
        · exact absurd h (by simp)
      · exact ⟨_, get?_of_ownAnswer h⟩
  · exact ⟨_, get?_of_ownAnswer h⟩

end Outline

section

variable (world : World) (files : String → Option Outline)

/-- **The lookup of a name**: with some places seen and some errands to do, it comes to a
declaration or to none. -/
inductive Lookup : List Waypoint → List Errand → Option Key → Prop where
  | nothing {seen} : Lookup seen [] none
  | again {seen todo w result} (hw : w ∈ seen) (h : Lookup seen todo result) :
      Lookup seen (.visit w :: todo) result
  | found {seen todo w o d} (hw : w ∉ seen) (ho : files w.file = some o)
      (hd : o.answer w.name w.external = .declared d) :
      Lookup seen (.visit w :: todo) (some d.key)
  | onward {seen todo w o result} (hw : w ∉ seen) (ho : files w.file = some o)
      (hd : ∀ d, o.answer w.name w.external ≠ .declared d)
      (h : Lookup (seen ++ [w]) (o.errands w.name w.external ++ todo) result) :
      Lookup seen (.visit w :: todo) result
  | astray {seen todo origin specifier name result}
      (hmodule : (world.locate specifier origin).1 = .ok none) (h : Lookup seen todo result) :
      Lookup seen (.follow origin specifier name :: todo) result
  | through {seen todo origin specifier name path result}
      (hmodule : (world.locate specifier origin).1 = .ok (some path))
      (h : Lookup seen (.visit ⟨path, name, true⟩ :: todo) result) :
      Lookup seen (.follow origin specifier name :: todo) result

/-- A lookup of at most `steps` steps, and what it comes to if it ends within them. -/
def lookup? : (steps : Nat) → List Waypoint → List Errand → Option (Option Key)
  | 0, _, _ => none
  | _ + 1, _, [] => some none
  | steps + 1, seen, .visit w :: todo =>
    if w ∈ seen then lookup? steps seen todo
    else
      match files w.file with
      | none => none
      | some o =>
        match o.answer w.name w.external with
        | .declared d => some (some d.key)
        | _ => lookup? steps (seen ++ [w]) (o.errands w.name w.external ++ todo)
  | steps + 1, seen, .follow origin specifier name :: todo =>
    match (world.locate specifier origin).1 with
    | .error _ => none
    | .ok none => lookup? steps seen todo
    | .ok (some path) => lookup? steps seen (.visit ⟨path, name, true⟩ :: todo)

/-- **What a place denotes**: the declaration that a lookup which begins there comes to. -/
def Denotes (w : Waypoint) (key : Key) : Prop := Lookup world files [] [.visit w] (some key)

/-- The place of a declaration: the file answers with it. -/
def Declares (w : Waypoint) (key : Key) : Prop :=
  ∃ o d, files w.file = some o ∧ o.answer w.name w.external = .declared d ∧ d.key = key

/-- The place that an errand leads to. -/
def Errand.LeadsTo : Errand → Waypoint → Prop
  | .visit w, w' => w' = w
  | .follow origin specifier name, w' =>
    ∃ path, (world.locate specifier origin).1 = .ok (some path) ∧ w' = ⟨path, name, true⟩

/-- **A hop** from a place to one that its file sends to. -/
def Hop (w w' : Waypoint) : Prop :=
  ∃ o, files w.file = some o ∧ ∃ e ∈ o.errands w.name w.external, e.LeadsTo world w'

/-- A place that can be come to, hop by hop. -/
abbrev Reaches : Waypoint → Waypoint → Prop := Relation.ReflTransGen (Hop world files)

/-- An errand that ends at certain places, or at a module that is not there. -/
def Errand.EndsIn (places : Waypoint → Prop) : Errand → Prop
  | .visit w => places w
  | .follow origin specifier name =>
    (world.locate specifier origin).1 = .ok none ∨
      ∃ path, (world.locate specifier origin).1 = .ok (some path) ∧ places ⟨path, name, true⟩

/-- A place that sends on to certain places: the file can be read, and does not declare the name. -/
def SendsTo (places : Waypoint → Prop) (w : Waypoint) : Prop :=
  ∃ o, files w.file = some o ∧ (∀ d, o.answer w.name w.external ≠ .declared d) ∧
    ∀ e ∈ o.errands w.name w.external, e.EndsIn world places

/-- **A barren place**, from which nothing is found: it is among places that send on to each
other. -/
def Barren (w : Waypoint) : Prop :=
  ∃ places : Waypoint → Prop, places w ∧ ∀ w', places w' → SendsTo world files places w'

end

variable {world : World} {files : String → Option Outline}

theorem Errand.EndsIn.mono {places places' : Waypoint → Prop} {e : Errand}
    (h : e.EndsIn world places) (hsub : ∀ w, places w → places' w) : e.EndsIn world places' := by
  cases e with
  | visit w => exact hsub w h
  | follow origin specifier name =>
    exact h.imp_right fun ⟨path, hmodule, hpath⟩ => ⟨path, hmodule, hsub _ hpath⟩

/-- **Barren places send on to barren places.** -/
theorem Barren.sendsTo {w : Waypoint} (h : Barren world files w) :
    SendsTo world files (Barren world files) w := by
  obtain ⟨places, hw, hplaces⟩ := h
  obtain ⟨o, ho, hd, herrands⟩ := hplaces w hw
  exact ⟨o, ho, hd, fun e he => (herrands e he).mono fun w' hw' => ⟨places, hw', hplaces⟩⟩

theorem Barren.of_reaches {w w' : Waypoint} (h : Barren world files w)
    (hreach : Reaches world files w w') : Barren world files w' := by
  induction hreach with
  | refl => exact h
  | tail _ hhop ih =>
    obtain ⟨o, ho, e, he, hlead⟩ := hhop
    obtain ⟨o', ho', -, herrands⟩ := ih.sendsTo
    obtain rfl := Option.some.inj (ho.symm.trans ho')
    have hends := herrands e he
    cases e with
    | visit w => exact (show _ = w from hlead) ▸ hends
    | follow origin specifier name =>
      obtain ⟨path, hmodule, rfl⟩ := hlead
      rcases hends with hnone | ⟨path', hmodule', hbarren⟩
      · exact absurd (hmodule.symm.trans hnone) (by simp)
      · obtain rfl := Option.some.inj (Except.ok.inj (hmodule.symm.trans hmodule'))
        exact hbarren

theorem Declares.unique {w : Waypoint} {key key' : Key} (h : Declares files w key)
    (h' : Declares files w key') : key = key' := by
  obtain ⟨o, d, ho, hd, rfl⟩ := h
  obtain ⟨o', d', ho', hd', rfl⟩ := h'
  rw [ho] at ho'
  obtain rfl := Option.some.inj ho'
  rw [hd] at hd'
  rw [Answer.declared.inj hd']

namespace Lookup

variable {seen : List Waypoint} {todo : List Errand} {result : Option Key}

/-- What a lookup of some steps comes to, the lookup comes to. -/
theorem of_lookup? {steps : Nat} (h : lookup? world files steps seen todo = some result) :
    Lookup world files seen todo result := by
  induction steps generalizing seen todo with
  | zero => exact absurd h (by simp [lookup?])
  | succ steps ih =>
    cases todo with
    | nil =>
      rw [← Option.some.inj h]
      exact nothing
    | cons errand todo =>
      cases errand with
      | visit w =>
        rw [lookup?] at h
        split at h
        · next hw => exact again hw (ih h)
        · next hw =>
          split at h
          · exact absurd h (by simp)
          · next o ho =>
            split at h
            · next d hd =>
              rw [← Option.some.inj h]
              exact found hw ho hd
            · next hd => exact onward hw ho hd (ih h)
      | follow origin specifier name =>
        rw [lookup?] at h
        split at h
        · exact absurd h (by simp)
        · next hmodule => exact astray hmodule (ih h)
        · next path hmodule => exact through hmodule (ih h)

/-- **A lookup comes to one thing only.** -/
theorem unique {result' : Option Key} (h : Lookup world files seen todo result)
    (h' : Lookup world files seen todo result') : result = result' := by
  -- the conditions of the steps exclude each other, so that both take the same one
  induction h with
  | nothing =>
    cases h'
    rfl
  | again hw _ ih =>
    cases h' with
    | again _ h' => exact ih h'
    | found hw' _ _ => exact absurd hw hw'
    | onward hw' _ _ _ => exact absurd hw hw'
  | found hw ho hd =>
    cases h' with
    | again hw' _ => exact absurd hw' hw
    | found _ ho' hd' =>
      exact congrArg some (Declares.unique ⟨_, _, ho, hd, rfl⟩ ⟨_, _, ho', hd', rfl⟩)
    | onward _ ho' hd' _ =>
      rw [ho] at ho'
      obtain rfl := Option.some.inj ho'
      exact absurd hd (hd' _)
  | onward hw ho hd _ ih =>
    cases h' with
    | again hw' _ => exact absurd hw' hw
    | found _ ho' hd' =>
      rw [ho] at ho'
      obtain rfl := Option.some.inj ho'
      exact absurd hd' (hd _)
    | onward _ ho' _ h' =>
      rw [ho] at ho'
      obtain rfl := Option.some.inj ho'
      exact ih h'
  | astray hmodule _ ih =>
    cases h' with
    | astray _ h' => exact ih h'
    | through hmodule' _ =>
      rw [hmodule] at hmodule'
      exact absurd (Except.ok.inj hmodule') (by simp)
  | through hmodule _ ih =>
    cases h' with
    | astray hmodule' _ =>
      rw [hmodule] at hmodule'
      exact absurd (Except.ok.inj hmodule') (by simp)
    | through hmodule' h' =>
      rw [hmodule] at hmodule'
      obtain rfl := Option.some.inj (Except.ok.inj hmodule')
      exact ih h'

/-- What a lookup comes to can be reached from the place of one of its errands. -/
theorem exists_reaches {key : Key} (h : Lookup world files seen todo (some key)) :
    ∃ e ∈ todo, ∃ w w', e.LeadsTo world w ∧ Reaches world files w w' ∧
      Declares files w' key := by
  generalize hresult : some key = result at h
  induction h with
  | nothing => exact absurd hresult (by simp)
  | again _ _ ih =>
    obtain ⟨e, he, h⟩ := ih hresult
    exact ⟨e, List.mem_cons_of_mem _ he, h⟩
  | @found _ _ w o d _ ho hd =>
    refine ⟨.visit w, List.mem_cons_self, w, w, rfl, Relation.ReflTransGen.refl, ?_⟩
    exact ⟨o, d, ho, hd, (Option.some.inj hresult).symm⟩
  | @onward _ _ w o _ _ ho _ _ ih =>
    obtain ⟨e, he, w₁, w₂, hlead, hreach, hd⟩ := ih hresult
    rcases List.mem_append.mp he with he | he
    · exact ⟨.visit w, List.mem_cons_self, w, w₂, rfl, hreach.head ⟨o, ho, e, he, hlead⟩, hd⟩
    · exact ⟨e, List.mem_cons_of_mem _ he, w₁, w₂, hlead, hreach, hd⟩
  | astray _ _ ih =>
    obtain ⟨e, he, h⟩ := ih hresult
    exact ⟨e, List.mem_cons_of_mem _ he, h⟩
  | @through _ _ origin specifier name path _ hmodule _ ih =>
    obtain ⟨e, he, w₁, w₂, hlead, hreach, hd⟩ := ih hresult
    rcases List.mem_cons.mp he with rfl | he
    · exact ⟨_, List.mem_cons_self, w₁, w₂, ⟨path, hmodule, hlead⟩, hreach, hd⟩
    · exact ⟨e, List.mem_cons_of_mem _ he, w₁, w₂, hlead, hreach, hd⟩

/-- **A lookup that comes to nothing has been everywhere**: there are places that hold those seen
before, at which its errands end, and of which all that were not seen before send on to them. -/
theorem exists_closed (h : Lookup world files seen todo none) :
    ∃ visited : Waypoint → Prop, (∀ w ∈ seen, visited w) ∧
      (∀ e ∈ todo, e.EndsIn world visited) ∧
      ∀ w, visited w → w ∉ seen → SendsTo world files visited w := by
  generalize hresult : (none : Option Key) = result at h
  induction h with
  | @nothing seen => exact ⟨(· ∈ seen), fun w hw => hw, by simp, fun w hw hn => absurd hw hn⟩
  | again hw _ ih =>
    obtain ⟨visited, hseen, htodo, hclosed⟩ := ih hresult
    exact ⟨visited, hseen, List.forall_mem_cons.mpr ⟨hseen _ hw, htodo⟩, hclosed⟩
  | found => exact absurd hresult (by simp)
  | @onward seen todo w o _ hw ho hd _ ih =>
    obtain ⟨visited, hseen, htodo, hclosed⟩ := ih hresult
    have hvisited : visited w := hseen w (List.mem_append_right _ (List.mem_singleton.mpr rfl))
    refine ⟨visited, fun w' hw' => hseen w' (List.mem_append_left _ hw'),
      List.forall_mem_cons.mpr ⟨hvisited, fun e he => htodo e (List.mem_append_right _ he)⟩, ?_⟩
    intro w' hw' hn
    by_cases hsame : w' = w
    · subst hsame
      exact ⟨o, ho, hd, fun e he => htodo e (List.mem_append_left _ he)⟩
    · refine hclosed w' hw' fun hmem => ?_
      rcases List.mem_append.mp hmem with hmem | hmem
      · exact hn hmem
      · exact hsame (List.mem_singleton.mp hmem)
  | astray hmodule _ ih =>
    obtain ⟨visited, hseen, htodo, hclosed⟩ := ih hresult
    exact ⟨visited, hseen, List.forall_mem_cons.mpr ⟨Or.inl hmodule, htodo⟩, hclosed⟩
  | @through _ _ origin specifier name path _ hmodule _ ih =>
    obtain ⟨visited, hseen, htodo, hclosed⟩ := ih hresult
    obtain ⟨hplace, htodo⟩ := List.forall_mem_cons.mp htodo
    exact ⟨visited, hseen, List.forall_mem_cons.mpr ⟨Or.inr ⟨path, hmodule, hplace⟩, htodo⟩,
      hclosed⟩

/-- **A place whose lookup comes to nothing is barren.** -/
theorem barren {w : Waypoint} (h : Lookup world files [] [.visit w] none) :
    Barren world files w := by
  obtain ⟨visited, -, htodo, hclosed⟩ := h.exists_closed
  exact ⟨visited, htodo _ List.mem_cons_self, fun w' hw' => hclosed w' hw' List.not_mem_nil⟩

/-- **Where a lookup comes to nothing, no declaration can be reached.** -/
theorem not_declares {w w' : Waypoint} {key : Key} (h : Lookup world files [] [.visit w] none)
    (hreach : Reaches world files w w') : ¬Declares files w' key := by
  rintro ⟨o, d, ho, hd, -⟩
  obtain ⟨o', ho', hnone, -⟩ := (h.barren.of_reaches hreach).sendsTo
  obtain rfl := Option.some.inj (ho.symm.trans ho')
  exact hnone d hd

end Lookup

/-- A place reaches what it denotes. -/
theorem Denotes.exists_reaches {w : Waypoint} {key : Key} (h : Denotes world files w key) :
    ∃ w', Reaches world files w w' ∧ Declares files w' key := by
  obtain ⟨e, he, w₁, w₂, hlead, hreach, hd⟩ := Lookup.exists_reaches h
  rw [List.mem_singleton.mp he] at hlead
  rw [show w₁ = w from hlead] at hreach
  exact ⟨w₂, hreach, hd⟩

end TypeGraft
