import Mathlib.Data.Finset.Card
import Mathlib.Tactic.Tauto
import TypeGraft.Proofs.Harvest.Visits
import TypeGraft.Proofs.Resolution.Names

/-!
# Why a search ends

While no file is read, a search can only come to places that the files and the names that it has
met give rise to. `TypeGraft.Resolution.potential` counts what it may do there yet, and every step
that reads no file makes it smaller (`TypeGraft.Searching.potential_lt`).

* **Visits.** What counts most is how many places each reference has not come to
  (`TypeGraft.Harvest.ahead`). A declaration that was not taken in yet counts beforehand for each
  reference that it would bring, so taking it in adds nothing.
* **Work in frames.** Each step takes something off the innermost frame, but what is set aside
  comes back in later stages: a name that comes from elsewhere is sent into one module, and a name
  that may come from anywhere into each module of which all is exported. So a name weighs as much
  as all frames that it may open yet (`TypeGraft.Frame.cost`). A visit is worth more than all
  that it can add to a frame (`TypeGraft.Harvest.stride`).
-/

namespace TypeGraft

/-! ### Sums -/

section Total

variable {α : Type}

theorem total_append (l l' : List Nat) : total (l ++ l') = total l + total l' := by
  induction l with
  | nil => simp [total]
  | cons n l ih =>
    have hcons : ∀ (n : Nat) (l : List Nat), total (n :: l) = n + total l := fun _ _ => rfl
    rw [List.cons_append, hcons, hcons, ih, Nat.add_assoc]

@[simp] theorem total_nil : total [] = 0 := rfl

@[simp] theorem total_cons (n : Nat) (l : List Nat) : total (n :: l) = n + total l := rfl

theorem total_map_le {f g : α → Nat} {l : List α} (h : ∀ a ∈ l, f a ≤ g a) :
    total (l.map f) ≤ total (l.map g) := by
  induction l with
  | nil => exact Nat.le_refl _
  | cons a l ih =>
    exact Nat.add_le_add (h a List.mem_cons_self) (ih fun b hb => h b (List.mem_cons_of_mem _ hb))

/-- A sum gets smaller by what one of its terms loses. -/
theorem total_map_add_le {f g : α → Nat} {l : List α} {a : α} {loss : Nat} (ha : a ∈ l)
    (h : ∀ b ∈ l, f b ≤ g b) (hloss : f a + loss ≤ g a) :
    total (l.map f) + loss ≤ total (l.map g) := by
  induction l with
  | nil => exact absurd ha List.not_mem_nil
  | cons b l ih =>
    have hb : f b ≤ g b := h b List.mem_cons_self
    have hrest : ∀ c ∈ l, f c ≤ g c := fun c hc => h c (List.mem_cons_of_mem _ hc)
    rw [List.map_cons, List.map_cons, total_cons, total_cons]
    rcases List.mem_cons.mp ha with rfl | ha
    · have hle := total_map_le hrest
      omega
    · have hle := ih ha hrest
      omega

/-- A sum gets smaller by what the term that changes loses. -/
theorem total_modify_add_le (f : α → Nat) {change : α → α} {loss : Nat} {l : List α} {i : Nat}
    {a : α} (ha : l[i]? = some a) (hloss : f (change a) + loss ≤ f a) :
    total ((l.modify i change).map f) + loss ≤ total (l.map f) := by
  induction l generalizing i with
  | nil => exact absurd ha (by simp)
  | cons b l ih =>
    cases i with
    | zero =>
      obtain rfl : b = a := by simpa using ha
      rw [List.modify_zero_cons, List.map_cons, List.map_cons, total_cons, total_cons]
      omega
    | succ i =>
      rw [List.modify_succ_cons, List.map_cons, List.map_cons, total_cons, total_cons]
      have hle := ih (by simpa using ha)
      omega

theorem total_map_const (l : List α) (n : Nat) : total (l.map fun _ => n) = l.length * n := by
  induction l with
  | nil => simp
  | cons a l ih =>
    rw [List.map_cons, total_cons, ih, List.length_cons, Nat.succ_mul, Nat.add_comm]

theorem total_map_mul (n : Nat) (f : α → Nat) (l : List α) :
    total (l.map fun a => n * f a) = n * total (l.map f) := by
  induction l with
  | nil => rfl
  | cons a l ih => rw [List.map_cons, total_cons, ih, List.map_cons, total_cons, Nat.mul_add]

theorem length_flatMap_eq_total {β : Type} (f : α → List β) (l : List α) :
    (l.flatMap f).length = total (l.map fun a => (f a).length) := by
  induction l with
  | nil => rfl
  | cons a l ih => rw [List.flatMap_cons, List.length_append, List.map_cons, total_cons, ih]

theorem le_total_of_mem {f : α → Nat} {l : List α} {a : α} (ha : a ∈ l) :
    f a ≤ total (l.map f) := by
  have hle : total (l.map fun _ => 0) + f a ≤ total (l.map f) :=
    total_map_add_le ha (fun b _ => Nat.zero_le (f b)) (Nat.le_of_eq (Nat.zero_add _))
  exact (Nat.le_add_left _ _).trans hle

/-- What putting in a value adds to a sum over a table. -/
theorem Table.total_put_le {β : Type} [DecidableEq α] (f : α × β → Nat) (table : Table α β) (k : α)
    (v : β) (more : Nat) (hnew : table.get? k = none → f (k, v) ≤ more)
    (hold : ∀ old, table.get? k = some old → f (k, v) ≤ f (k, old) + more) :
    total ((table.put k v).map f) ≤ total (table.map f) + more := by
  induction table with
  | nil => simpa [Table.put] using hnew rfl
  | cons entry rest ih =>
    obtain ⟨key, value⟩ := entry
    by_cases hk : key = k
    · subst hk
      have hmore := hold value (by rw [Table.get?_cons, if_pos rfl])
      rw [Table.put, if_pos rfl, List.map_cons, List.map_cons, total_cons, total_cons]
      omega
    · rw [Table.put, if_neg hk, List.map_cons, List.map_cons, total_cons, total_cons]
      have hle := ih (fun h => hnew (by rw [Table.get?_cons, if_neg hk, h]))
        fun old h => hold old (by rw [Table.get?_cons, if_neg hk, h])
      omega

end Total

/-! ### The names that a search may meet -/

/-- The names that a file leads to: those that its declarations mention, and those under which
other modules know what it imports or passes on. -/
def Outline.vocabulary (o : Outline) : List String :=
  o.declarations.flatMap (fun d => (d.2.freeMentions o.source).map (·.name)) ++
    (o.imports.map (·.2.foreignName) ++ o.reexports.map (·.2.foreignName))

theorem Outline.length_vocabulary_le (o : Outline) : o.vocabulary.length ≤ o.weight := by
  have hmentions : total (o.declarations.map fun d =>
        ((d.2.freeMentions o.source).map (·.name)).length) ≤
      total (o.declarations.map fun d => (d.2.freeMentions o.source).length + 1) :=
    total_map_le fun d _ => by rw [List.length_map]; exact Nat.le_succ _
  rw [vocabulary, List.length_append, List.length_append, length_flatMap_eq_total, List.length_map,
    List.length_map, weight]
  omega

/-- A name is sent to another module under a name that the file leads to. -/
theorem Outline.foreignName_mem_vocabulary {o : Outline} {name : String} {external : Bool}
    {binding : Binding} (h : o.answer name external = .elsewhere binding) :
    binding.foreignName ∈ o.vocabulary := by
  have himport : ∀ {external name}, o.ownAnswer external name = .elsewhere binding →
      binding.foreignName ∈ o.vocabulary := by
    intro external name h
    unfold ownAnswer at h
    split at h
    · exact absurd h (by simp)
    · split at h
      · next binding' hget =>
        obtain rfl := Answer.elsewhere.inj h
        exact List.mem_append_right _ (List.mem_append_left _
          (List.mem_map.mpr ⟨_, Table.mem_of_get? hget, rfl⟩))
      · split at h <;> exact absurd h (by simp)
  unfold answer at h
  split at h
  · split at h
    · exact himport h
    · split at h
      · next binding' hget =>
        split at h
        · exact himport h
        · obtain rfl := Answer.elsewhere.inj h
          exact List.mem_append_right _ (List.mem_append_right _
            (List.mem_map.mpr ⟨_, Table.mem_of_get? hget, rfl⟩))
      · exact himport h
  · exact himport h

/-- What a declaration mentions is among the names that its file leads to. -/
theorem Outline.mention_mem_vocabulary {o : Outline} {own name : String} {d : Declaration}
    (hd : o.declarations.get? own = some d)
    (h : name ∈ (Harvest.mentioned o d).map (·.name)) : name ∈ o.vocabulary := by
  rw [Harvest.mentioned, List.map_map] at h
  exact List.mem_append_left _ (List.mem_flatMap.mpr ⟨(own, d), Table.mem_of_get? hd, h⟩)

/-- The names that a frame will look for, in its file or elsewhere. -/
def Frame.names (frame : Frame) : List String :=
  match frame.stage with
  | .names queue missing starred =>
    queue.map (·.name) ++ (missing.map (·.2.foreignName) ++ starred.map (·.name))
  | .modules groups starred => groups.flatMap (·.2.map (·.name)) ++ starred.map (·.name)
  | .stars _ pending => pending.map (·.name)

theorem Frame.length_names_le (frame : Frame) : frame.names.length ≤ frame.weight := by
  obtain ⟨o, stage⟩ := frame
  cases stage with
  | names queue missing starred =>
    simp only [Frame.names, Frame.weight, List.length_append, List.length_map]
    omega
  | modules groups starred =>
    have hgroups : total (groups.map fun g => (g.2.map (·.name)).length) ≤
        total (groups.map (·.2.length + 1)) :=
      total_map_le fun g _ => by rw [List.length_map]; exact Nat.le_succ _
    simp only [Frame.names, Frame.weight, List.length_append, List.length_map,
      length_flatMap_eq_total] at hgroups ⊢
    omega
  | stars specifiers pending =>
    simp only [Frame.names, Frame.weight, List.length_map]
    omega

/-! ### What lies ahead -/

/-- The places that some files and names give rise to. -/
def placesOf (files names : List String) : Finset Waypoint :=
  (files.flatMap fun file => names.flatMap fun name =>
    [(⟨file, name, false⟩ : Waypoint), ⟨file, name, true⟩]).toFinset

theorem mem_placesOf {files names : List String} {place : Waypoint} (hfile : place.file ∈ files)
    (hname : place.name ∈ names) : place ∈ placesOf files names := by
  obtain ⟨file, name, external⟩ := place
  refine List.mem_toFinset.mpr (List.mem_flatMap.mpr ⟨file, hfile,
    List.mem_flatMap.mpr ⟨name, hname, ?_⟩⟩)
  cases external <;> simp

theorem card_placesOf_le (files names : List String) :
    (placesOf files names).card ≤ files.length * (names.length * 2) := by
  refine (List.toFinset_card_le _).trans (Nat.le_of_eq ?_)
  rw [length_flatMap_eq_total]
  simp only [length_flatMap_eq_total, List.length_cons, List.length_nil]
  rw [total_map_const, total_map_const]

namespace Harvest

variable {s s' : Harvest} {o : Outline} {q : Query} {found : Found} {places : Finset Waypoint}

/-- The places that are left for a reference that has come to some. -/
def unseen (places : Finset Waypoint) (visited : List Waypoint) : Nat :=
  (places.filter fun place => place ∉ visited).card

/-- The declarations in the files that were read. -/
def declared (s : Harvest) : List (Outline × Declaration) :=
  s.files.flatMap fun f => f.2.declarations.map fun d => (f.2, d.2)

/-- The number of mentions in the declarations that were not taken in. -/
def openMentions (s : Harvest) : Nat :=
  total (s.declared.map fun p =>
    if (s.graft? p.2.key).isSome then 0 else (mentioned p.1 p.2).length)

/-- **The visits that lie ahead**, for the references that there are and for those that may
still come. -/
def ahead (s : Harvest) (places : Finset Waypoint) : Nat :=
  total (s.visits.map (unseen places)) + s.openMentions * places.card

/-- The weight of the files that were read. -/
def fileWeight (s : Harvest) : Nat := total (s.files.map (·.2.weight))

/-- What a visit is worth. -/
def stride (s : Harvest) : Nat := 5 * s.fileWeight + 5

theorem weight_le_fileWeight {path : String} (h : s.files.get? path = some o) :
    o.weight ≤ s.fileWeight := by
  have hle := le_total_of_mem (f := fun f : String × Outline => f.2.weight) (Table.mem_of_get? h)
  exact hle

theorem unseen_nil (places : Finset Waypoint) : unseen places [] = places.card := by
  rw [unseen, Finset.filter_true_of_mem]
  exact fun _ _ => List.not_mem_nil

theorem unseen_le_card (places : Finset Waypoint) (visited : List Waypoint) :
    unseen places visited ≤ places.card := Finset.card_filter_le _ _

/-- **A new place** is no longer left. -/
theorem unseen_concat_lt {visited : List Waypoint} {place : Waypoint} (hplace : place ∈ places)
    (hnew : place ∉ visited) : unseen places (visited ++ [place]) + 1 ≤ unseen places visited := by
  refine Finset.card_lt_card (Finset.ssubset_iff_of_subset ?_ |>.mpr ⟨place, ?_, ?_⟩)
  · intro w hw
    rw [Finset.mem_filter] at hw ⊢
    exact ⟨hw.1, fun h => hw.2 (List.mem_append_left _ h)⟩
  · exact Finset.mem_filter.mpr ⟨hplace, hnew⟩
  · rw [Finset.mem_filter]
    exact fun h => h.2 (List.mem_append_right _ (List.mem_singleton_self _))

theorem openMentions_congr (hfiles : s'.files = s.files) (hnames : s'.names = s.names) :
    s'.openMentions = s.openMentions := by
  have hsome : ∀ key, (s'.graft? key).isSome = (s.graft? key).isSome := by
    intro key
    have hget : (s'.names.get? key).isSome = (s.names.get? key).isSome := by rw [hnames]
    rw [get?_names, get?_names, Option.isSome_map, Option.isSome_map] at hget
    exact hget
  rw [openMentions, openMentions, declared, declared, hfiles]
  simp only [hsome]

/-- **Taking in a declaration** takes its mentions off those that are open. -/
theorem openMentions_add_le {d : Declaration} {own newName : String}
    (hfile : s.files.get? o.path = some o) (hd : o.declarations.get? own = some d)
    (hg : s.graft? d.key = none) (hfiles : s'.files = s.files)
    (hnames : s'.names = s.names ++ [(d.key, d, newName)]) :
    s'.openMentions + (mentioned o d).length ≤ s.openMentions := by
  have hput : s.names.put d.key (d, newName) = s.names ++ [(d.key, d, newName)] :=
    Table.put_eq_append _ (by rw [get?_names, hg]; rfl)
  have hsome : ∀ key, (s'.graft? key).isSome =
      if d.key = key then true else (s.graft? key).isSome := by
    intro key
    have hget :
        (s'.names.get? key).isSome = ((s.names.put d.key (d, newName)).get? key).isSome := by
      rw [hnames, hput]
    rw [get?_names, Option.isSome_map, Table.get?_put] at hget
    rw [hget]
    split
    · rfl
    · rw [get?_names, Option.isSome_map]
  have hmem : (o, d) ∈ s.declared := List.mem_flatMap.mpr ⟨(o.path, o), Table.mem_of_get? hfile,
    List.mem_map.mpr ⟨(own, d), Table.mem_of_get? hd, rfl⟩⟩
  rw [openMentions, openMentions, show s'.declared = s.declared by rw [declared, hfiles, declared]]
  refine total_map_add_le hmem ?_ ?_
  · intro p _
    rw [hsome]
    split
    · exact Nat.zero_le _
    · exact Nat.le_refl _
  · dsimp only
    rw [hsome, if_pos rfl, if_pos rfl, hg]
    exact Nat.le_of_eq (Nat.zero_add _)

/-- **A look into a file reads nothing.** -/
theorem Records.files (h : Records s o q s' found) : s'.files = s.files := by
  cases h with
  | nothing => rfl
  | visit _ hkeeps => exact hkeeps.files
  | walk _ _ _ hfiles => exact hfiles

/-- **A look into a file takes a visit off those that lie ahead**, unless it does nothing. -/
theorem Records.ahead (h : Records s o q s' found) (hfile : s.files.get? o.path = some o)
    (hplace : q.placeIn o ∈ places) :
    (s' = s ∧ found = .settled) ∨ s'.ahead places + 1 ≤ s.ahead places := by
  have hvisit : ∀ {r}, s.Fresh o q r →
      total ((comeTo s.visits q.ref (q.placeIn o)).map (unseen places)) + 1 ≤
        total (s.visits.map (unseen places)) := by
    intro r hr
    refine total_modify_add_le (a := r.waypoints) _ ?_ (unseen_concat_lt hplace hr.unseen)
    rw [visits, List.getElem?_map, show s.references[q.ref]? = some r from hr.reference]
    rfl
  cases h with
  | nothing => exact Or.inl ⟨rfl, rfl⟩
  | visit hr hkeeps hvisits =>
    refine Or.inr ?_
    have hle := hvisit hr
    rw [Harvest.ahead, Harvest.ahead, hvisits, openMentions_congr hkeeps.files hkeeps.names]
    omega
  | @walk _ r d _ _ hr ha hg hfiles hnames hvisits =>
    refine Or.inr ?_
    obtain ⟨own, hown⟩ := Outline.exists_get?_of_answer ha
    have hle := hvisit hr
    have hopen := Nat.mul_le_mul_right places.card
      (openMentions_add_le hfile hown hg hfiles hnames)
    -- each new reference may go everywhere, and that is what was counted for it
    have hnew : total (((mentioned o d).map fun _ => ([] : List Waypoint)).map (unseen places)) =
        (mentioned o d).length * places.card := by
      rw [List.map_map, ← total_map_const]
      exact congrArg total (List.map_congr_left fun _ _ => unseen_nil places)
    rw [Harvest.ahead, Harvest.ahead, hvisits, List.map_append, total_append, hnew]
    rw [Nat.add_mul] at hopen
    omega

end Harvest

/-! ### Work in frames -/

/-- **What the work in a frame may cost yet**, with all frames that it may open. -/
def Frame.cost (frame : Frame) : Nat :=
  let modules := 5 * frame.outline.starExports.length
  match frame.stage with
  | .names queue missing starred =>
    queue.length + 5 * missing.length + modules * starred.length + 3
  | .modules groups starred =>
    total (groups.map (·.2.length + 4)) + modules * starred.length + 2
  | .stars specifiers pending => 5 * specifiers.length * pending.length + 1

namespace Resolution

/-- **What a search may do yet** while it reads no file. -/
def potential (places : Finset Waypoint) (r : Resolution) : Nat :=
  r.harvest.ahead places * r.harvest.stride + total (r.frames.map Frame.cost)

/-- **All that a search may meet while it reads no file**: the names in its frames and those that
the files lead to. -/
structure Within (names : List String) (r : Resolution) : Prop where
  frame : ∀ frame ∈ r.frames, ∀ name ∈ frame.names, name ∈ names
  file : ∀ f ∈ r.harvest.files, ∀ name ∈ f.2.vocabulary, name ∈ names

/-- The places that a search may come to while it reads no file. -/
def places (names : List String) (r : Resolution) : Finset Waypoint :=
  placesOf (r.harvest.files.map (·.1)) names

end Resolution

namespace Harvest

variable {s s' : Harvest} {o : Outline} {world : World} {path : String}

/-- Setting names aside by their modules costs no more than they did. -/
theorem total_groups_le (s : Harvest) (missing : List (Query × Binding)) :
    total ((s.groups missing).map (·.2.length + 4)) ≤ 5 * missing.length := by
  have hopen : ∀ items : List (Query × Binding),
      total ((items.foldl (fun table m =>
        let found := (Table.get? table m.2.specifier).getD []
        Table.put table m.2.specifier
          (found ++ [⟨m.1.ref, m.2.foreignName, true⟩]))
          ([] : Table String (List Query))).map (·.2.length + 4)) ≤ 5 * items.length := by
    intro items
    induction items using List.reverseRecOn with
    | nil => exact Nat.le_refl _
    | append_singleton items m ih =>
      obtain ⟨query, binding⟩ := m
      rw [List.foldl_append, List.length_append]
      refine (Table.total_put_le _ _ _ _ 5 ?_ ?_).trans (Nat.add_le_add_right ih 5)
      · intro hnew
        simp [hnew]
      · intro old hold
        simp [hold]
  exact (hopen _).trans (Nat.mul_le_mul_left 5 (List.length_filter_le _ _))

/-- A module is asked for names that are known to lead there. -/
theorem mem_names_groups {missing : List (Query × Binding)} {name : String}
    (h : name ∈ (s.groups missing).flatMap (·.2.map (·.name))) :
    name ∈ missing.map (·.2.foreignName) := by
  have hmem := (groups_perm s (fun _ query => query.name) missing).subset h
  obtain ⟨m, hm, rfl⟩ := List.mem_map.mp hmem
  exact List.mem_map.mpr ⟨m, (List.mem_filter.mp hm).1, rfl⟩

/-- **Asking for a file** reads it, unless that was done before. -/
theorem files_of_outlineOf (h : s.outlineOf world path = (s', .ok o)) :
    s'.files = s.files ∨
      s.files.get? path = none ∧ o.path = path ∧ s'.files = s.files ++ [(path, o)] := by
  cases outlined h with
  | known => exact Or.inl rfl
  | read hnew _ hscan =>
    obtain ⟨rfl, -⟩ := wellFormed_of_outline hscan
    exact Or.inr ⟨hnew, rfl, Table.put_eq_append _ hnew⟩

/-- **Looking into a module** changes nothing but the log, unless its file is read. -/
theorem files_of_moduleOutline {origin specifier : String} {queries : List Query}
    {found : Option Outline}
    (h : s.moduleOutline world origin specifier queries = (s', .ok found)) :
    s'.files = s.files ∨ ∃ o : Outline, found = some o ∧ s.files.get? o.path = none ∧
      (world.locate specifier origin).1 = .ok (some o.path) ∧
      s'.files = s.files ++ [(o.path, o)] := by
  cases led h with
  | nowhere => exact Or.inl rfl
  | outlined hlocate houtline =>
    rcases files_of_outlineOf houtline with hsame | ⟨hnew, rfl, hread⟩
    · exact Or.inl hsame
    · exact Or.inr ⟨_, rfl, hnew, hlocate, hread⟩

end Harvest

namespace Found

variable {o : Outline} {q : Query} {queue : List Query} {missing : List (Query × Binding)}
  {starred : List Query}

/-- What a name that was looked for in a file adds to the work there. -/
def cost (o : Outline) : Found → Nat
  | .settled => 0
  | .elsewhere _ => 5
  | .starred => 5 * o.starExports.length
  | .declared mentioned => mentioned.length

/-- The names that it adds to those that will be looked for. -/
def names : Found → List String
  | .elsewhere binding => [binding.foreignName]
  | .declared mentioned => mentioned.map (·.name)
  | _ => []

theorem cost_stage (found : Found) (o : Outline) (q : Query) (queue : List Query)
    (missing : List (Query × Binding)) (starred : List Query) :
    (⟨o, found.stage q queue missing starred⟩ : Frame).cost + 1 =
      (⟨o, .names (q :: queue) missing starred⟩ : Frame).cost + found.cost o := by
  cases found with
  | settled =>
    simp only [Frame.cost, stage, cost, List.length_cons]
    omega
  | elsewhere binding =>
    simp only [Frame.cost, stage, cost, List.length_cons, List.length_append, List.length_nil]
    omega
  | starred =>
    simp only [Frame.cost, stage, cost, List.length_cons, List.length_append, List.length_nil,
      Nat.mul_add]
    omega
  | declared mentioned =>
    simp only [Frame.cost, stage, cost, List.length_cons, List.length_append]
    omega

theorem mem_names_stage {found : Found} {name : String}
    (h : name ∈ (⟨o, found.stage q queue missing starred⟩ : Frame).names) :
    name ∈ (⟨o, .names (q :: queue) missing starred⟩ : Frame).names ∨ name ∈ found.names := by
  cases found <;> simp only [Frame.names, stage, Found.names, List.map_append, List.map_cons,
    List.mem_append, List.mem_cons, List.map_nil, List.not_mem_nil, or_false] at h ⊢ <;> tauto

end Found

/-- **What looking for a name adds to the work in a file**: names that the file leads to, and no
more than its weight. -/
theorem Harvest.Looks.modest {s s' : Harvest} {o : Outline} {q : Query} {found : Found}
    (h : Looks s o q s' found) :
    (∀ name ∈ found.names, name ∈ o.vocabulary) ∧ found.cost o ≤ 5 * o.weight := by
  have hweight : o.starExports.length + 1 ≤ o.weight := by
    rw [Outline.weight]
    omega
  cases h with
  | passed | unknown | leftOut | again =>
    exact ⟨fun _ hname => absurd hname List.not_mem_nil, Nat.zero_le _⟩
  | elsewhere _ ha =>
    refine ⟨fun name hname => ?_, ?_⟩
    · rw [List.mem_singleton.mp hname]
      exact Outline.foreignName_mem_vocabulary ha
    · rw [Found.cost]
      omega
  | starred =>
    refine ⟨fun _ hname => absurd hname List.not_mem_nil, ?_⟩
    rw [Found.cost]
    omega
  | @first r d hr ha hl hg =>
    obtain ⟨own, hown⟩ := Outline.exists_get?_of_answer ha
    obtain ⟨parentRefs, hmeet⟩ :=
      exists_meet (s.arrive o q r) o d (s.arrival o q r).2 (requestOf r)
    rw [hmeet]
    refine ⟨fun name hname => Outline.mention_mem_vocabulary hown ?_, ?_⟩
    · rw [← names_asked]
      exact hname
    · have hlength := congrArg List.length (names_asked o d
        (((s.arrive o q r).tookIn d (requestOf r)).fulfil
          (s.arrival o q r).2 d.key).references.length)
      rw [List.length_map, List.length_map, mentioned, List.length_map] at hlength
      have hle := le_total_of_mem (f := fun d => (d.2.freeMentions o.source).length + 1)
        (Table.mem_of_get? hown)
      dsimp only at hle
      rw [Found.cost, hlength, Outline.weight]
      omega

/-! ### Steps -/

namespace Searching

open Harvest Resolution

variable {world : World} {files : String → Option Outline} {external : Bool} {s : Harvest}
  {frame : Frame} {rest frames : List Frame} {names : List String} {r' : Resolution}

/-- What a step keeps while it reads no file, and what it makes smaller. -/
structure Lighter (names : List String) (r r' : Resolution) : Prop where
  files : r'.harvest.files = r.harvest.files
  within : r'.Within names
  lt : r'.potential (r.places names) < r.potential (r.places names)

/-- A step that looks for no name, with less work in the frames. -/
theorem lighter_of_cost {s' : Harvest} {frames' : List Frame} (hfiles : s'.files = s.files)
    (hgrafts : s'.grafts = s.grafts) (hreferences : s'.references = s.references)
    (hwithin : Within names ⟨s, frames⟩)
    (hnames : ∀ f ∈ frames', ∀ name ∈ f.names, name ∈ names)
    (hcost : total (frames'.map Frame.cost) < total (frames.map Frame.cost)) :
    Lighter names ⟨s, frames⟩ ⟨s', frames'⟩ := by
  have hahead : ∀ places, s'.ahead places = s.ahead places := by
    intro places
    rw [ahead, ahead, visits, visits, hreferences,
      openMentions_congr hfiles (by rw [Harvest.names, Harvest.names, hgrafts])]
  have hstride : s'.stride = s.stride := by rw [stride, fileWeight, hfiles, stride, fileWeight]
  refine ⟨hfiles, ⟨hnames, fun f hf => hwithin.file f (by rwa [hfiles] at hf)⟩, ?_⟩
  rw [potential, potential]
  dsimp only
  rw [hahead, hstride]
  exact Nat.add_lt_add_left hcost _

/-- **Going into a module** that was read before. -/
theorem lighter_enter {specifier : String} {queries : List Query}
    (h : Searching world files external ⟨s, frames⟩) (hwithin : Within names ⟨s, frames⟩)
    (henter : Resolution.Enters world s frame rest specifier queries (.running r'))
    (hsame : r'.harvest.files.length = s.files.length)
    (hnames : ∀ f ∈ frame :: rest, ∀ name ∈ f.names, name ∈ names)
    (hqueries : ∀ q ∈ queries, q.name ∈ names)
    (hcost : queries.length + 3 + total ((frame :: rest).map Frame.cost) <
      total (frames.map Frame.cost)) : Lighter names ⟨s, frames⟩ r' := by
  have hgrafts := grafts_enter henter
  cases henter with
  | nowhere hmodule =>
    obtain ⟨-, hreferences, -⟩ := changes_of_moduleOutline h.grounded hmodule
    rcases files_of_moduleOutline hmodule with hfiles | ⟨o, ho, -⟩
    · exact lighter_of_cost hfiles hgrafts hreferences hwithin hnames (by omega)
    · exact absurd ho (by simp)
  | file hmodule =>
    obtain ⟨-, hreferences, -⟩ := changes_of_moduleOutline h.grounded hmodule
    rcases files_of_moduleOutline hmodule with hfiles | ⟨o, -, -, -, hread⟩
    · refine lighter_of_cost hfiles hgrafts hreferences hwithin ?_ ?_
      · intro f hf name hname
        rcases List.mem_cons.mp hf with rfl | hf
        · simp only [Frame.names, List.map_nil, List.append_nil] at hname
          obtain ⟨q, hq, rfl⟩ := List.mem_map.mp hname
          exact hqueries q hq
        · exact hnames f hf name hname
      · rw [List.map_cons, total_cons]
        simp only [Frame.cost, List.length_nil, Nat.mul_zero, Nat.add_zero]
        exact hcost
    · have hlength := congrArg List.length hread
      rw [List.length_append] at hlength
      exact absurd (hlength.symm.trans hsame) (by simp)

variable {o : Outline} {q : Query} {queue : List Query} {missing : List (Query × Binding)}
  {starred : List Query}

/-- **Looking for a name** in the innermost frame. What it adds to the frame is less than what
its visit was worth. -/
theorem lighter_names {s' : Harvest} {found : Found}
    (h : Searching world files external ⟨s, ⟨o, .names (q :: queue) missing starred⟩ :: rest⟩)
    (hwithin : Within names ⟨s, ⟨o, .names (q :: queue) missing starred⟩ :: rest⟩)
    (hlooks : Looks s o q s' found) :
    Lighter names ⟨s, ⟨o, .names (q :: queue) missing starred⟩ :: rest⟩
      ⟨s', ⟨o, found.stage q queue missing starred⟩ :: rest⟩ := by
  have hfile : s.files.get? o.path = some o := (h.orderly _ List.mem_cons_self).file
  have hmem := Table.mem_of_get? hfile
  have hinner := hwithin.frame _ List.mem_cons_self
  have hplace : q.placeIn o ∈ placesOf (s.files.map (·.1)) names :=
    mem_placesOf (List.mem_map.mpr ⟨_, hmem, rfl⟩)
      (hinner q.name (List.mem_append_left _ List.mem_cons_self))
  have hfiles := hlooks.records.files
  have hahead := hlooks.records.ahead hfile hplace
  have hstride : s'.stride = s.stride := by rw [stride, fileWeight, hfiles, stride, fileWeight]
  obtain ⟨hnames, hsmall⟩ := hlooks.modest
  have hweight := weight_le_fileWeight hfile
  refine ⟨hfiles, ⟨?_, fun f hf => hwithin.file f (by rwa [← hfiles])⟩, ?_⟩
  · intro f hf
    rcases List.mem_cons.mp hf with rfl | hf
    · intro name hname
      rcases Found.mem_names_stage hname with hname | hname
      · exact hinner name hname
      · exact hwithin.file _ hmem name (hnames name hname)
    · exact hwithin.frame f (List.mem_cons_of_mem _ hf)
  · have hcost := found.cost_stage o q queue missing starred
    rw [potential, potential, List.map_cons, total_cons, List.map_cons, total_cons]
    dsimp only [Resolution.places]
    rw [hstride]
    generalize placesOf (s.files.map (·.1)) names = places at hahead ⊢
    rcases hahead with ⟨rfl, rfl⟩ | hahead
    · rw [Found.cost] at hcost
      omega
    · have hworth := Nat.mul_le_mul_right s.stride hahead
      rw [Nat.succ_mul] at hworth
      have hstep : found.cost o < s.stride := by
        rw [stride]
        omega
      omega

/-- **A frame goes to its next stage**, or is left. -/
theorem lighter_reframe {frame : Frame} {frames' : List Frame}
    (hwithin : Within names ⟨s, frame :: rest⟩)
    (hframes : ∀ f ∈ frames', f ∈ rest ∨ ∀ name ∈ f.names, name ∈ frame.names)
    (hcost : total (frames'.map Frame.cost) < total ((frame :: rest).map Frame.cost)) :
    Lighter names ⟨s, frame :: rest⟩ ⟨s, frames'⟩ := by
  refine lighter_of_cost rfl rfl rfl hwithin ?_ hcost
  intro f hf name hname
  rcases hframes f hf with hf | hf
  · exact hwithin.frame f (List.mem_cons_of_mem _ hf) name hname
  · exact hwithin.frame frame List.mem_cons_self name (hf name hname)

/-- **A name goes into the next module** of those of which all is exported. -/
theorem lighter_star {specifier : String} {specifiers : List String} {pending : List Query}
    (h : Searching world files external ⟨s, ⟨o, .stars (specifier :: specifiers) pending⟩ :: rest⟩)
    (hwithin : Within names ⟨s, ⟨o, .stars (specifier :: specifiers) pending⟩ :: rest⟩)
    (hmissing : s.stillMissing pending ≠ [])
    (henter : Resolution.Enters world s ⟨o, .stars specifiers (s.stillMissing pending)⟩
      rest specifier (s.stillMissing pending) (.running r'))
    (hsame : r'.harvest.files.length = s.files.length) :
    Lighter names ⟨s, ⟨o, .stars (specifier :: specifiers) pending⟩ :: rest⟩ r' := by
  have hlength : (s.stillMissing pending).length ≤ pending.length := List.length_filter_le _ _
  have hsub : ∀ q ∈ s.stillMissing pending, q.name ∈ names := fun q hq =>
    hwithin.frame _ List.mem_cons_self q.name
      (List.mem_map.mpr ⟨q, (List.mem_filter.mp hq).1, rfl⟩)
  refine h.lighter_enter hwithin henter hsame ?_ hsub ?_
  · intro f hf name hname
    rcases List.mem_cons.mp hf with rfl | hf
    · obtain ⟨q, hq, rfl⟩ := List.mem_map.mp hname
      exact hsub q hq
    · exact hwithin.frame f (List.mem_cons_of_mem _ hf) name hname
  · simp only [List.map_cons, total_cons, Frame.cost]
    -- one module less is left for each name, and each name weighs five for it
    have hwork := Nat.mul_le_mul_left (5 * specifiers.length) hlength
    have hsplit : 5 * (specifier :: specifiers).length * pending.length =
        5 * specifiers.length * pending.length + 5 * pending.length := by
      rw [List.length_cons, Nat.mul_succ, Nat.add_mul]
    have hpositive := List.length_pos_of_ne_nil hmissing
    omega

/-- **A step that reads no file** leaves the search with less to do. -/
theorem lighter_step {r : Resolution} (h : Searching world files external r)
    (hwithin : r.Within names) (hstep : Resolution.step world r = .running r')
    (hsame : r'.harvest.files.length = r.harvest.files.length) : Lighter names r r' := by
  -- no name is looked for that was not before, and the frames together cost less
  cases Resolution.step_eq_iff.mp hstep with
  | names hlook =>
    have hlooks := h.looks_of_look hlook
    exact h.lighter_names hwithin hlooks
  | @regroup s o missing starred rest =>
    refine lighter_reframe hwithin ?_ ?_
    · intro f hf
      refine (List.mem_cons.mp hf).symm.imp_right ?_
      rintro rfl name hname
      rcases List.mem_append.mp hname with hname | hname
      · exact List.mem_append_right _ (List.mem_append_left _ (mem_names_groups hname))
      · exact List.mem_append_right _ (List.mem_append_right _ hname)
    · have hgroups := s.total_groups_le missing
      simp only [List.map_cons, total_cons, Frame.cost, List.length_nil]
      omega
  | @module s o specifier queries groups starred rest _ henter =>
    have hinner := hwithin.frame _ List.mem_cons_self
    refine h.lighter_enter hwithin henter hsame ?_ ?_ ?_
    · intro f hf name hname
      rcases List.mem_cons.mp hf with rfl | hf
      · refine hinner name ?_
        rcases List.mem_append.mp hname with hname | hname
        · exact List.mem_append_left _ (List.mem_append_right _ hname)
        · exact List.mem_append_right _ hname
      · exact hwithin.frame f (List.mem_cons_of_mem _ hf) name hname
    · intro q hq
      exact hinner q.name (List.mem_append_left _ (List.mem_append_left _
        (List.mem_map.mpr ⟨q, hq, rfl⟩)))
    · simp only [List.map_cons, total_cons, Frame.cost]
      omega
  | stars =>
    refine lighter_reframe hwithin ?_ ?_
    · intro f hf
      refine (List.mem_cons.mp hf).symm.imp_right ?_
      rintro rfl name hname
      exact List.mem_append_right _ hname
    · simp only [List.map_cons, total_cons, Frame.cost, List.map_nil, total_nil]
      omega
  | star hmissing henter => exact h.lighter_star hwithin hmissing henter hsame
  | leave =>
    refine lighter_reframe hwithin (fun f hf => Or.inl hf) ?_
    simp only [List.map_cons, total_cons, Frame.cost]
    omega

end Searching

end TypeGraft
