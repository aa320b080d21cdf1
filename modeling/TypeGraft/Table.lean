/-!
# Tables that keep their order

A `TypeGraft.Table` maps keys to values and lists its entries in the order in which their keys
were first put in. Putting in a key again keeps its place and replaces its value.
-/

namespace TypeGraft

/-- A finite map with its entries in the order of their arrival. -/
abbrev Table (α β : Type) := List (α × β)

namespace Table

variable {α β : Type} [DecidableEq α]

/-- The value of a key. -/
def get? : Table α β → α → Option β
  | [], _ => none
  | (key, value) :: rest, k => if key = k then some value else get? rest k

/-- Whether a key is in the table. -/
def has (table : Table α β) (key : α) : Bool := (table.get? key).isSome

/-- The keys, in order. -/
def keys (table : Table α β) : List α := table.map Prod.fst

/-- Put in a value for a key. -/
def put : Table α β → α → β → Table α β
  | [], k, v => [(k, v)]
  | (key, value) :: rest, k, v => if key = k then (key, v) :: rest else (key, value) :: put rest k v

/-- Change the value of a key, if the key is in the table. -/
def adjust (change : β → β) : Table α β → α → Table α β
  | [], _ => []
  | (key, value) :: rest, k =>
    if key = k then (key, change value) :: rest else (key, value) :: adjust change rest k

/-- Putting in a value is seen by a look-up. -/
@[simp] theorem get?_put_self (table : Table α β) (k : α) (v : β) :
    (table.put k v).get? k = some v := by
  induction table with
  | nil => simp [put, get?]
  | cons entry rest ih =>
    obtain ⟨key, value⟩ := entry
    by_cases h : key = k <;> simp [put, get?, h, ih]

/-- Putting in a value for one key leaves the others alone. -/
theorem get?_put_of_ne (table : Table α β) {k k' : α} (v : β) (h : k ≠ k') :
    (table.put k v).get? k' = table.get? k' := by
  induction table with
  | nil => simp [put, get?, h]
  | cons entry rest ih =>
    obtain ⟨key, value⟩ := entry
    by_cases hk : key = k
    · subst hk
      simp [put, get?, h]
    · by_cases hk' : key = k'
      · subst hk'
        simp [put, get?, hk]
      · simp [put, get?, hk, hk', ih]

/-- A key that is put in again keeps its place, and a new one comes last. -/
theorem keys_put (table : Table α β) (k : α) (v : β) :
    (table.put k v).keys = if k ∈ table.keys then table.keys else table.keys ++ [k] := by
  induction table with
  | nil => simp [put, keys]
  | cons entry rest ih =>
    obtain ⟨key, value⟩ := entry
    by_cases h : key = k
    · simp [put, keys, h]
    · have h' : k ≠ key := fun e => h e.symm
      simp only [keys] at ih
      by_cases hr : k ∈ rest.map Prod.fst
      · simp [put, keys, h, h', ih, hr]
      · simp [put, keys, h, h', ih, hr]

/-- Putting in a value keeps each key once. -/
theorem nodup_keys_put {table : Table α β} (h : table.keys.Nodup) (k : α) (v : β) :
    (table.put k v).keys.Nodup := by
  rw [keys_put]
  split
  · exact h
  · next hk => exact List.nodup_append.2 ⟨h, by simp, by grind⟩

end Table

/-- The items of a list without those that occurred before. -/
def distinct {α : Type} [DecidableEq α] (items : List α) : List α :=
  items.foldl (fun seen item => if item ∈ seen then seen else seen ++ [item]) []

end TypeGraft
