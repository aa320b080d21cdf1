import Mathlib.Data.List.Forall2
import Mathlib.Data.List.Induction
import Mathlib.Data.List.Nodup
import TypeGraft.Table

/-!
# Look-ups in tables, and lists without repetitions

What the rest of the theory knows of `TypeGraft.Table` and of `TypeGraft.distinct`: which
values an operation leaves under which keys, and which items come first. Where a list of steps
succeeds, there is a result for each of them (`TypeGraft.forall₂_of_mapM`).

The order of `TypeGraft.distinct` is what a walk that lists a node whenever it is met again
relies on: of two items the one that is met first stands first
(`TypeGraft.sublist_distinct`).
-/

namespace TypeGraft

namespace Table

variable {α β : Type} [DecidableEq α]

@[simp] theorem get?_nil (k : α) : Table.get? ([] : Table α β) k = none := rfl

theorem get?_cons (k : α) (v : β) (rest : Table α β) (k' : α) :
    Table.get? ((k, v) :: rest) k' = if k = k' then some v else Table.get? rest k' := rfl

theorem get?_put (table : Table α β) (k k' : α) (v : β) :
    (table.put k v).get? k' = if k = k' then some v else table.get? k' := by
  by_cases h : k = k'
  · rw [h, get?_put_self, if_pos rfl]
  · rw [get?_put_of_ne _ _ h, if_neg h]

/-- A value that is found stands in the table. -/
theorem mem_of_get? {table : Table α β} {k : α} {v : β} (h : table.get? k = some v) :
    (k, v) ∈ table := by
  induction table with
  | nil => exact absurd h (by simp)
  | cons entry rest ih =>
    obtain ⟨key, value⟩ := entry
    rw [get?_cons] at h
    split at h
    · next hk => rw [hk, Option.some.inj h]; exact List.mem_cons_self
    · exact List.mem_cons_of_mem _ (ih h)

/-- Where no key is repeated, what stands in the table is found. -/
theorem get?_of_mem {table : Table α β} {k : α} {v : β} (hkeys : table.keys.Nodup)
    (h : (k, v) ∈ table) : table.get? k = some v := by
  induction table with
  | nil => exact absurd h List.not_mem_nil
  | cons entry rest ih =>
    obtain ⟨key, value⟩ := entry
    obtain ⟨hnew, hkeys⟩ := List.nodup_cons.mp hkeys
    rw [get?_cons]
    rcases List.mem_cons.mp h with heq | hrest
    · obtain ⟨rfl, rfl⟩ := Prod.mk.inj heq
      rw [if_pos rfl]
    · rw [if_neg ?_, ih hkeys hrest]
      rintro rfl
      exact hnew (List.mem_map.mpr ⟨_, hrest, rfl⟩)

theorem has_iff {table : Table α β} {k : α} : table.has k = true ↔ ∃ v, table.get? k = some v :=
  Option.isSome_iff_exists

theorem not_mem_keys {table : Table α β} {k : α} (h : table.get? k = none) : k ∉ table.keys := by
  induction table with
  | nil => exact List.not_mem_nil
  | cons entry rest ih =>
    rw [get?_cons] at h
    split at h
    · exact absurd h (by simp)
    · next hne =>
      intro hmem
      rcases List.mem_cons.mp hmem with heq | hmem
      · exact hne heq.symm
      · exact ih h hmem

theorem get?_adjust (change : β → β) (table : Table α β) (k k' : α) :
    (Table.adjust change table k).get? k' =
      if k = k' then (table.get? k').map change else table.get? k' := by
  induction table with
  | nil => simp [adjust]
  | cons entry rest ih =>
    obtain ⟨key, value⟩ := entry
    by_cases hk : key = k
    · subst hk
      by_cases hk' : key = k' <;> simp [adjust, get?_cons, hk']
    · by_cases hk' : key = k'
      · subst hk'
        have hne : k ≠ key := fun e => hk e.symm
        simp [adjust, get?_cons, hk, hne]
      · simp [adjust, get?_cons, hk, hk', ih]

/-- **A change of a value that an observation does not see** leaves all observations as they
are. -/
theorem map_adjust {γ : Type} (f : α × β → γ) (change : β → β)
    (h : ∀ k v, f (k, change v) = f (k, v)) (table : Table α β) (k : α) :
    (Table.adjust change table k).map f = table.map f := by
  induction table with
  | nil => rfl
  | cons entry rest ih =>
    obtain ⟨key, value⟩ := entry
    by_cases hk : key = k
    · simp [adjust, hk, h]
    · simp [adjust, hk, ih]

theorem get?_map {γ : Type} (f : β → γ) (table : Table α β) (k : α) :
    Table.get? (table.map fun entry => (entry.1, f entry.2)) k = (table.get? k).map f := by
  induction table with
  | nil => rfl
  | cons entry rest ih =>
    obtain ⟨key, value⟩ := entry
    rw [List.map_cons, get?_cons, get?_cons, ih]
    split <;> rfl

theorem put_eq_append {table : Table α β} {k : α} (v : β) (h : table.get? k = none) :
    table.put k v = table ++ [(k, v)] := by
  induction table with
  | nil => rfl
  | cons entry rest ih =>
    obtain ⟨key, value⟩ := entry
    rw [get?_cons] at h
    by_cases hk : key = k
    · simp [hk] at h
    · rw [if_neg hk] at h
      simp [put, hk, ih h]

/-- What is put in, one after the other, is in the table, with what was there. -/
theorem isSome_get?_foldl_put (key : β → α) (items : List β) (table : Table α β) (k : α) :
    ((items.foldl (fun table x => table.put (key x) x) table).get? k).isSome ↔
      (table.get? k).isSome ∨ ∃ x ∈ items, key x = k := by
  induction items generalizing table with
  | nil => simp
  | cons x items ih =>
    rw [List.foldl_cons, ih, get?_put]
    by_cases hx : key x = k <;> simp [hx]

/-- What is found there was put in, or was there. -/
theorem of_get?_foldl_put {key : β → α} {items : List β} {table : Table α β} {k : α} {x : β}
    (h : (items.foldl (fun table x => table.put (key x) x) table).get? k = some x) :
    x ∈ items ∨ table.get? k = some x := by
  induction items generalizing table with
  | nil => exact Or.inr h
  | cons y items ih =>
    rcases ih h with hx | hx
    · exact Or.inl (List.mem_cons_of_mem _ hx)
    · rw [get?_put] at hx
      split at hx
      · exact Or.inl (Option.some.inj hx ▸ List.mem_cons_self)
      · exact Or.inr hx

/-- **Adding to the value of a key** adds to what the entries come to, whatever their order. -/
theorem flatMap_put_perm {γ : Type} (f : α × β → List γ) (table : Table α β) (k : α) (v : β)
    (more : List γ) (hnew : table.get? k = none → f (k, v) = more)
    (hold : ∀ old, table.get? k = some old → f (k, v) = f (k, old) ++ more) :
    ((table.put k v).flatMap f).Perm (table.flatMap f ++ more) := by
  induction table with
  | nil => simpa [put] using List.Perm.of_eq (hnew rfl)
  | cons entry rest ih =>
    obtain ⟨key, value⟩ := entry
    by_cases hk : key = k
    · subst hk
      have hmore := hold value (by rw [get?_cons, if_pos rfl])
      rw [put, if_pos rfl, List.flatMap_cons, List.flatMap_cons, hmore, List.append_assoc,
        List.append_assoc]
      exact List.perm_append_comm.append_left _
    · rw [put, if_neg hk, List.flatMap_cons, List.flatMap_cons, List.append_assoc]
      refine (ih (fun h => hnew ?_) fun old h => hold old ?_).append_left _
      · rw [get?_cons, if_neg hk, h]
      · rw [get?_cons, if_neg hk, h]

end Table

/-- A value that is computed from its entry. -/
theorem Table.get?_mapEntry {α β γ : Type} [DecidableEq α] (f : α × β → γ) (table : Table α β)
    (k : α) : Table.get? (table.map fun entry => (entry.1, f entry)) k =
      (table.get? k).map fun v => f (k, v) := by
  induction table with
  | nil => rfl
  | cons entry rest ih =>
    obtain ⟨key, value⟩ := entry
    rw [List.map_cons, Table.get?_cons, Table.get?_cons, ih]
    by_cases hk : key = k
    · subst hk
      rw [if_pos rfl, if_pos rfl]
      rfl
    · rw [if_neg hk, if_neg hk]

/-! ### Lists of results -/

/-- **Where all steps succeed**, each item has its result. -/
theorem forall₂_of_mapM {ε α β : Type} {f : α → Except ε β} {items : List α} {results : List β}
    (h : items.mapM f = .ok results) : List.Forall₂ (fun a b => f a = .ok b) items results := by
  induction items generalizing results with
  | nil =>
    rw [List.mapM_nil] at h
    rw [← Except.ok.inj h]
    exact List.Forall₂.nil
  | cons a items ih =>
    rw [List.mapM_cons] at h
    cases hf : f a with
    | error failure =>
      rw [hf] at h
      exact absurd h (by simp [bind, Except.bind])
    | ok b =>
      cases hrest : items.mapM f with
      | error failure =>
        rw [hf, hrest] at h
        exact absurd h (by simp [bind, Except.bind])
      | ok rest =>
        rw [hf, hrest] at h
        rw [← Except.ok.inj h]
        exact List.Forall₂.cons hf (ih hrest)

/-- **A list of steps fails** with the failure of one of them. -/
theorem exists_of_mapM_error {ε α β : Type} {f : α → Except ε β} {items : List α} {failure : ε}
    (h : items.mapM f = .error failure) : ∃ a ∈ items, f a = .error failure := by
  induction items with
  | nil =>
    rw [List.mapM_nil] at h
    exact absurd h (by simp [pure, Except.pure])
  | cons a items ih =>
    rw [List.mapM_cons] at h
    cases hf : f a with
    | error failure' =>
      rw [hf] at h
      obtain rfl : failure' = failure := Except.error.inj h
      exact ⟨a, List.mem_cons_self, hf⟩
    | ok b =>
      cases hrest : items.mapM f with
      | error failure' =>
        rw [hf, hrest] at h
        obtain rfl : failure' = failure := Except.error.inj h
        obtain ⟨a', ha', hf'⟩ := ih hrest
        exact ⟨a', List.mem_cons_of_mem _ ha', hf'⟩
      | ok rest =>
        rw [hf, hrest] at h
        exact absurd h (by simp [bind, Except.bind, pure, Except.pure])

/-- Where each step succeeds, all of them do. -/
theorem exists_mapM {ε α β : Type} {f : α → Except ε β} {items : List α}
    (h : ∀ a ∈ items, ∃ b, f a = .ok b) : ∃ results, items.mapM f = .ok results := by
  cases hresults : items.mapM f with
  | ok results => exact ⟨results, rfl⟩
  | error failure =>
    obtain ⟨a, ha, hfailure⟩ := exists_of_mapM_error hresults
    obtain ⟨b, hb⟩ := h a ha
    rw [hfailure] at hb
    exact absurd hb (by simp)

/-- The results are those of the items. -/
theorem mem_iff_of_mapM {ε α β : Type} {f : α → Except ε β} {items : List α} {results : List β}
    (h : items.mapM f = .ok results) {b : β} : b ∈ results ↔ ∃ a ∈ items, f a = .ok b := by
  have hall := forall₂_of_mapM h
  clear h
  induction hall with
  | nil => simp
  | @cons a b' items results hb' _ ih =>
    constructor
    · intro hb
      rcases List.mem_cons.mp hb with rfl | hb
      · exact ⟨a, List.mem_cons_self, hb'⟩
      · obtain ⟨a', ha', hb⟩ := ih.mp hb
        exact ⟨a', List.mem_cons_of_mem _ ha', hb⟩
    · rintro ⟨a', ha', hb⟩
      rcases List.mem_cons.mp ha' with rfl | ha'
      · rw [Except.ok.inj (hb.symm.trans hb')]
        exact List.mem_cons_self
      · exact List.mem_cons_of_mem _ (ih.mpr ⟨a', ha', hb⟩)

theorem exists_of_mem_of_mapM {ε α β : Type} {f : α → Except ε β} {items : List α}
    {results : List β} (h : items.mapM f = .ok results) {a : α} (ha : a ∈ items) :
    ∃ b ∈ results, f a = .ok b := by
  have hall := forall₂_of_mapM h
  clear h
  induction hall with
  | nil => exact absurd ha List.not_mem_nil
  | @cons a' b items results hb _ ih =>
    rcases List.mem_cons.mp ha with rfl | ha
    · exact ⟨b, List.mem_cons_self, hb⟩
    · obtain ⟨b', hb', hf⟩ := ih ha
      exact ⟨b', List.mem_cons_of_mem _ hb', hf⟩

/-! ### Lists without repetitions -/

section Distinct

variable {α : Type} [DecidableEq α]

/-- One step of `TypeGraft.distinct`. -/
theorem distinct_concat (items : List α) (a : α) :
    distinct (items ++ [a]) =
      if a ∈ distinct items then distinct items else distinct items ++ [a] := by
  rw [distinct, List.foldl_append]
  rfl

@[simp] theorem distinct_nil : distinct ([] : List α) = [] := rfl

@[simp] theorem mem_distinct {items : List α} {a : α} : a ∈ distinct items ↔ a ∈ items := by
  induction items using List.reverseRecOn with
  | nil => simp
  | append_singleton items b ih =>
    rw [distinct_concat]
    by_cases hb : b ∈ distinct items
    · rw [if_pos hb, List.mem_append, List.mem_singleton, ih]
      refine ⟨Or.inl, ?_⟩
      rintro (h | rfl)
      · exact h
      · exact ih.mp hb
    · rw [if_neg hb, List.mem_append, List.mem_append, ih]

theorem nodup_distinct (items : List α) : (distinct items).Nodup := by
  induction items using List.reverseRecOn with
  | nil => simp
  | append_singleton items b ih =>
    rw [distinct_concat]
    split
    · exact ih
    · next hb => exact List.nodup_append.2 ⟨ih, by simp, by grind⟩

/-- What was listed stays in front. -/
theorem distinct_prefix_append (items more : List α) :
    distinct items <+: distinct (items ++ more) := by
  induction more using List.reverseRecOn with
  | nil => simp
  | append_singleton more b ih =>
    rw [← List.append_assoc, distinct_concat]
    split
    · exact ih
    · exact ih.trans (List.prefix_append _ _)

/-- **Of two items the one that is met first stands first.** -/
theorem sublist_distinct {front back : List α} {a b : α} (hb : b ∉ front) (hne : b ≠ a)
    (hmem : b ∈ back) : [a, b].Sublist (distinct (front ++ a :: back)) := by
  have hsplit : front ++ a :: back = (front ++ [a]) ++ back := by simp
  obtain ⟨rest, hrest⟩ := distinct_prefix_append (front ++ [a]) back
  have ha : a ∈ distinct (front ++ [a]) := by simp
  have hb' : b ∈ rest := by
    have h : b ∈ distinct ((front ++ [a]) ++ back) := by simp [hmem]
    rw [← hrest, List.mem_append] at h
    refine h.resolve_left ?_
    intro hc
    rw [mem_distinct, List.mem_append, List.mem_singleton] at hc
    exact hc.elim hb hne
  rw [hsplit, ← hrest]
  exact (List.singleton_sublist.mpr ha).append (List.singleton_sublist.mpr hb')

end Distinct

end TypeGraft
