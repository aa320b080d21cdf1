import Mathlib.Data.List.Perm.Subperm
import TypeGraft.Proofs.Harvest.Change

/-!
# Which names are chosen

What `TypeGraft.Harvest.nameFor` can choose (`TypeGraft.Harvest.Named`): the own name of an alias
or an interface of the entry script, or else a name that was free.

**Numbers do not run out.** The names that a stem has with different numbers are different, and
only so many names are taken, so the search for a number ends with a free name
(`TypeGraft.Harvest.numbered_freeNumber_not_mem`), and with the first one there is.
-/

namespace TypeGraft.Harvest

variable {s s' : Harvest} {d : Declaration} {request : Option String} {key : Key}

/-! ### Numbers -/

/-- The names that a stem has with different numbers are different. -/
theorem numbered_injective (stem : String) : Function.Injective (numbered stem) := by
  intro m n h
  have hrepr : Nat.repr m = Nat.repr n := (String.append_right_inj _).mp h
  have hdigits : Nat.toDigits 10 m = Nat.toDigits 10 n := String.ofList_inj.mp hrepr
  have hvalue := congrArg (fun digits => Nat.ofDigitChars 10 digits 0) hdigits
  simpa only [Nat.ofDigitChars_ten_toDigits] using hvalue

/-- The search for a number skips only those that are taken, and stops early only at a free
one. -/
theorem freeNumber_spec (used : List String) (stem : String) (steps n : Nat) :
    n ≤ freeNumber used stem steps n ∧
      (∀ m, n ≤ m → m < freeNumber used stem steps n → numbered stem m ∈ used) ∧
      (numbered stem (freeNumber used stem steps n) ∈ used →
        freeNumber used stem steps n = n + steps) := by
  induction steps generalizing n with
  | zero =>
    refine ⟨Nat.le_refl _, ?_, fun _ => rfl⟩
    intro m hge hlt
    have hlt : m < n := hlt
    omega
  | succ steps ih =>
    rw [freeNumber]
    split
    · next htaken =>
      obtain ⟨hle, hskipped, hend⟩ := ih (n + 1)
      refine ⟨by omega, ?_, fun h => by rw [hend h]; omega⟩
      intro m hge hlt
      rcases Nat.eq_or_lt_of_le hge with rfl | hgt
      · exact htaken
      · exact hskipped m hgt hlt
    · next hfree =>
      refine ⟨Nat.le_refl _, ?_, fun h => absurd h hfree⟩
      intro m hge hlt
      omega

/-- **The search for a number ends with a name that was not used before.** -/
theorem numbered_freeNumber_not_mem (used : List String) (stem : String) (n : Nat) :
    numbered stem (freeNumber used stem (used.length + 1) n) ∉ used := by
  intro htaken
  obtain ⟨-, hskipped, hend⟩ := freeNumber_spec used stem (used.length + 1) n
  have hend := hend htaken
  -- more names would be taken than there are
  let tried := (List.range (used.length + 1)).map fun i => numbered stem (n + i)
  have hnodup : tried.Nodup := by
    refine List.nodup_range.map ?_
    intro i j hij
    exact Nat.add_left_cancel (numbered_injective stem hij)
  have hsub : tried ⊆ used := by
    intro name hname
    obtain ⟨i, hi, rfl⟩ := List.mem_map.mp hname
    have hi := List.mem_range.mp hi
    exact hskipped (n + i) (Nat.le_add_right n i) (by rw [hend]; omega)
  have hlength : tried.length ≤ used.length := (List.subperm_of_subset hnodup hsub).length_le
  rw [List.length_map, List.length_range] at hlength
  omega

/-! ### Stems -/

/-- Every stem starts with the mark. -/
theorem mark_prefix_stem (name : String) : inlineMark.toList <+: (stem name).toList := by
  unfold stem
  split
  · next h => exact List.isPrefixOf_iff_prefix.mp h
  · rw [String.toList_append]
    exact List.prefix_append _ _

/-- The mark is not put in front of a name twice. -/
theorem stem_eq_self {name : String} (h : inlineMark.toList <+: name.toList) :
    stem name = name :=
  if_pos (List.isPrefixOf_iff_prefix.mpr h)

theorem mark_prefix_numbered (name : String) (n : Nat) :
    inlineMark.toList <+: (numbered (stem name) n).toList := by
  refine (mark_prefix_stem name).trans ?_
  change _ <+: (stem name ++ "_" ++ toString n).toList
  rw [String.toList_append, String.toList_append, List.append_assoc]
  exact List.prefix_append _ _

/-! ### The choice of a name -/

/-- **What may be chosen** as the name of a declaration. -/
inductive Named (s : Harvest) (d : Declaration) (request : Option String) : String → Prop where
  /-- An alias or an interface of the entry script keeps its name. -/
  | own (hentry : s.isEntryFile d.file = true) (hd : d.isEnumeration = false) :
      Named s d request d.name
  /-- The name in the request is free. -/
  | requested {name} (hentry : s.isEntryFile d.file = false) (hrequest : request = some name)
      (hd : d.isEnumeration = false) (hfree : name ∉ s.takenNames) : Named s d request name
  /-- The name with the mark in front is free. -/
  | marked (hentry : s.isEntryFile d.file = false) (hd : d.isEnumeration = false)
      (hfree : stem d.name ∉ s.takenNames) : Named s d request (stem d.name)
  /-- Some number makes the name free. -/
  | numbered (n : Nat) (hentry : s.isEntryFile d.file = true → d.isEnumeration = true)
      (hfree : numbered (stem d.name) n ∉ s.takenNames) :
      Named s d request (numbered (stem d.name) n)

/-- What may be chosen depends on the names that are taken and on the entry script only. -/
theorem Keeps.named (h : s.Keeps s') {name : String} (hn : s'.Named d request name) :
    s.Named d request name := by
  have hentry : s.isEntryFile d.file = s'.isEntryFile d.file := by
    rw [isEntryFile, isEntryFile, h.entry]
  cases hn with
  | own hfile hd => exact Named.own (hentry.trans hfile) hd
  | requested hfile hrequest hd hfree =>
    exact Named.requested (hentry.trans hfile) hrequest hd (by rw [← h.takenNames]; exact hfree)
  | marked hfile hd hfree =>
    exact Named.marked (hentry.trans hfile) hd (by rw [← h.takenNames]; exact hfree)
  | numbered n hfile hfree =>
    refine Named.numbered n (fun hs => hfile (hentry.symm.trans hs)) ?_
    rw [← h.takenNames]
    exact hfree

theorem named_nameFor (s : Harvest) (d : Declaration) (request : Option String) :
    s.Named d request (s.nameFor d request).2 := by
  unfold nameFor
  split
  · next h =>
    obtain ⟨hentry, hd⟩ := Bool.and_eq_true_iff.mp h
    exact Named.own hentry (by simpa using hd)
  · next hnot =>
    have hentry : d.isEnumeration = false → s.isEntryFile d.file = false := by
      intro hd
      simpa [hd] using hnot
    split
    · next name hname =>
      obtain ⟨hrequest, h⟩ := Option.filter_eq_some_iff.mp hname
      obtain ⟨hd, hfree⟩ := Bool.and_eq_true_iff.mp h
      have hd : d.isEnumeration = false := by simpa using hd
      exact Named.requested (hentry hd) hrequest hd (by simpa using hfree)
    · dsimp only
      split
      · next h =>
        obtain ⟨hd, hfree⟩ := Bool.and_eq_true_iff.mp h
        have hd : d.isEnumeration = false := by simpa using hd
        exact Named.marked (hentry hd) hd (by simpa using hfree)
      · refine Named.numbered _ ?_ (numbered_freeNumber_not_mem _ _ _)
        intro h
        by_contra hd
        rw [hentry (by simpa using hd)] at h
        exact absurd h (by simp)

end TypeGraft.Harvest
