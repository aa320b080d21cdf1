import Mathlib.Data.List.Pairwise
import Mathlib.Data.List.Sort
import TypeGraft.Proofs.Outline
import TypeGraft.Proofs.Span
import TypeGraft.Proofs.Table
import TypeGraft.Splice

/-!
# What the edits are made of

* `TypeGraft.Harvest.mem_edits_iff`: the edits of the entry script are those of its requests, of its
  declarations and of its import statements.
* `TypeGraft.Harvest.trimming?_eq`: an import statement loses the names that are dropped and no
  others, and is removed if it brings in nothing any more.
-/

namespace TypeGraft

/-- Replacements that come one after the other. -/
def Replacement.Ordered (entries : List Replacement) : Prop :=
  entries.Pairwise fun a b => a.span.le b.span = true ∧ a.span ≠ b.span

instance (entries : List Replacement) : Decidable (Replacement.Ordered entries) :=
  inferInstanceAs (Decidable (List.Pairwise _ _))

theorem Replacement.sorted_inOrder (entries : List Replacement) :
    (inOrder entries).Pairwise fun a b => a.span.le b.span = true := by
  refine List.pairwise_mergeSort (fun a b c => ?_) (fun a b => ?_) entries
  · exact Span.le_trans
  · exact Bool.or_eq_true_iff.mpr (Span.le_total a.span b.span)

/-- **Replacements are put in order** in only one way, if no two are for the same span. -/
theorem Replacement.inOrder_eq {entries ordered : List Replacement} (hperm : ordered.Perm entries)
    (hordered : Ordered ordered) : inOrder entries = ordered := by
  have hall : (inOrder entries).Perm ordered := (List.mergeSort_perm _ _).trans hperm.symm
  refine List.Perm.eq_of_pairwise ?_ (sorted_inOrder entries) (hordered.imp And.left) hall
  intro a b ha hb hab hba
  by_contra hne
  have hapart : ordered.Pairwise fun a b => a.span ≠ b.span := hordered.imp And.right
  have hsymm : Std.Symm fun a b : Replacement => a.span ≠ b.span := ⟨fun _ _ h => h.symm⟩
  exact hapart.forall (hall.mem_iff.mp ha) hb hne (Span.le_antisymm hab hba)

theorem Replacement.applyAll_nil (raw : Bytes) (base : Span) : applyAll raw base [] = .ok raw := by
  rw [applyAll, inOrder, List.mergeSort_nil]
  rfl

/-- An import statement without some of its names. -/
def Import.without (stmt : Import) (drop : String → Bool) : Import :=
  { stmt with
    default := stmt.default.filter fun b => !drop b.name
    named := stmt.named.filter fun n => !drop n.1.name }

theorem Import.names_without (stmt : Import) (drop : String → Bool) :
    (stmt.without drop).names = stmt.names.filter fun name => !drop name := by
  rw [names, names, List.filter_append, List.filter_map]
  refine congrArg₂ (· ++ ·) ?_ ?_
  · cases hdefault : stmt.default with
    | none => simp [without, hdefault]
    | some b => cases hb : drop b.name <;> simp [without, hdefault, hb, Option.filter]
  · rw [List.filter_map]
    rfl

namespace Harvest

variable {s s' : Harvest} {o : Outline} {orders : Orders} {clean : Cleaning} {spliced : Splice}

/-! ### What the edits are made of -/

/-- The names of the bases whose imports are kept. -/
def keptNames (s : Harvest) (orders : Orders) (clean : Cleaning) : List String :=
  let staying := ((s.grafts.map (·.2)).filter fun e => s.isEntryFile e.declaration.file).filter
    fun e => !(s.idleInterfaces orders clean).contains e.declaration.key &&
      s.stays orders e.declaration
  staying.flatMap fun e => s.keptParents (s.blockKeys orders) e.declaration

/-- **A name is dropped** from the imports of the entry script. -/
def Drops (s : Harvest) (orders : Orders) (clean : Cleaning) (o : Outline) (name : String) : Prop :=
  s.drops (s.synonyms.knownNames o.path) (s.keptNames orders clean) name = true

/-- What becomes of a declaration of the entry script. -/
def editsOf (s : Harvest) (orders : Orders) (clean : Cleaning) (o : Outline) (e : Graft) :
    List Replacement :=
  s.declarationEdits orders clean (s.blockKeys orders) (s.idleInterfaces orders clean) o.source e

/-- What becomes of an import statement. -/
def trimmed? (s : Harvest) (orders : Orders) (clean : Cleaning) (o : Outline) (stmt : Import) :
    Option Replacement :=
  s.trimming? clean o.source (s.synonyms.knownNames o.path) (s.keptNames orders clean) stmt

/-- The edits of the entry script, as they come up. -/
def rawEdits (s : Harvest) (orders : Orders) (clean : Cleaning) (o : Outline) : List Replacement :=
  s.rootEdits ++
    ((s.grafts.map (·.2)).filter fun e => s.isEntryFile e.declaration.file).flatMap
      (s.editsOf orders clean o) ++
    o.importList.filterMap (s.trimmed? orders clean o)

theorem edits_eq (hentry : s.entry = some o.path) (hfile : s.files.get? o.path = some o) :
    s.edits orders clean = Replacement.inOrder (s.rawEdits orders clean o) := by
  unfold edits
  rw [hentry, Option.bind_some, hfile]
  rfl

/-- Without an entry script there is nothing to edit. -/
theorem edits_of_no_entry (h : s.entry = none) : s.edits orders clean = [] := by
  rw [edits, h]
  rfl

/-- What is changed in the entry script belongs to a request, a declaration or an import
statement. -/
theorem mem_rawEdits_iff {x : Replacement} : x ∈ s.rawEdits orders clean o ↔ x ∈ s.rootEdits ∨
      (∃ key e, (key, e) ∈ s.grafts ∧ s.isEntryFile e.declaration.file = true ∧
        x ∈ s.editsOf orders clean o e) ∨
      ∃ stmt ∈ o.importList, s.trimmed? orders clean o stmt = some x := by
  rw [rawEdits, List.mem_append, List.mem_append, or_assoc, List.mem_flatMap, List.mem_filterMap]
  refine or_congr_right (or_congr_left ?_)
  constructor
  · rintro ⟨e, he, hx⟩
    obtain ⟨hmem, hfile⟩ := List.mem_filter.mp he
    obtain ⟨⟨key, e'⟩, hgraft, rfl⟩ := List.mem_map.mp hmem
    exact ⟨key, e', hgraft, hfile, hx⟩
  · rintro ⟨key, e, hmem, hfile, hx⟩
    exact ⟨e, List.mem_filter.mpr ⟨List.mem_map.mpr ⟨_, hmem, rfl⟩, hfile⟩, hx⟩

/-- **The edits of the entry script** are those of its requests, of its declarations and of the
statements that import. -/
theorem mem_edits_iff (hentry : s.entry = some o.path) (hfile : s.files.get? o.path = some o)
    {x : Replacement} : x ∈ s.edits orders clean ↔ x ∈ s.rootEdits ∨
      (∃ key e, (key, e) ∈ s.grafts ∧ s.isEntryFile e.declaration.file = true ∧
        x ∈ s.editsOf orders clean o e) ∨
      ∃ stmt ∈ o.importList, s.trimmed? orders clean o stmt = some x := by
  rw [edits_eq hentry hfile, Replacement.inOrder, List.mem_mergeSort, mem_rawEdits_iff]

/-- **An import statement loses the names that are dropped**, and no others. It is removed if it
brings in nothing any more. -/
theorem trimming?_eq (s : Harvest) (clean : Cleaning) (source : Bytes)
    (resolved : Table String Key) (kept : List String) (stmt : Import) :
    s.trimming? clean source resolved kept stmt =
      let left := stmt.without (s.drops resolved kept)
      if left.names = stmt.names then none
      else if left.names = [] ∧ stmt.wholeModule = none then some (erasure clean source stmt.span)
      else some ⟨stmt.span, importText stmt left.default (left.named.map (·.2))⟩ := by
  let left := stmt.without (s.drops resolved kept)
  -- names only go, so that it is enough to count those that are left
  have hsame : (left.default.isSome == stmt.default.isSome &&
      left.named.length == stmt.named.length) = true ↔ left.names = stmt.names := by
    rw [Bool.and_eq_true, beq_iff_eq, beq_iff_eq]
    constructor
    · rintro ⟨hdefault, hnamed⟩
      have hnamed : left.named = stmt.named := List.filter_sublist.eq_of_length hnamed
      have hdefault : left.default = stmt.default := by
        cases h : stmt.default with
        | none => simp [left, Import.without, h]
        | some b =>
          rw [h] at hdefault
          obtain ⟨b', hb'⟩ := Option.isSome_iff_exists.mp hdefault
          rw [hb', ← h]
          exact (Option.filter_eq_some_iff.mp hb').1.symm
      rw [Import.names, hnamed, hdefault, Import.names]
    · intro hnames
      have hlength := congrArg List.length hnames
      rw [Import.names, Import.names, List.length_append, List.length_append, List.length_map,
        List.length_map, List.length_map, List.length_map] at hlength
      have hnamed : left.named.length ≤ stmt.named.length := List.length_filter_le _ _
      have hdefault : left.default.toList.length ≤ stmt.default.toList.length := by
        cases h : stmt.default with
        | none => simp [left, Import.without, h]
        | some b => cases left.default <;> simp
      refine ⟨?_, by omega⟩
      have hdefault : left.default.toList.length = stmt.default.toList.length := by omega
      cases h : left.default <;> cases h' : stmt.default <;> simp [h, h'] at hdefault ⊢
  have hempty : (left.default.isNone && left.named.isEmpty && stmt.wholeModule.isNone) = true ↔
      left.names = [] ∧ stmt.wholeModule = none := by
    rw [Bool.and_eq_true, Bool.and_eq_true, Import.names, List.append_eq_nil_iff,
      List.map_eq_nil_iff, List.map_eq_nil_iff, Option.toList_eq_nil_iff, Option.isNone_iff_eq_none,
      List.isEmpty_iff, Option.isNone_iff_eq_none]
  have htrim : s.trimming? clean source resolved kept stmt =
      if (left.default.isSome == stmt.default.isSome &&
        left.named.length == stmt.named.length) = true then none
      else if (left.default.isNone && left.named.isEmpty && stmt.wholeModule.isNone) = true then
        some (erasure clean source stmt.span)
      else some ⟨stmt.span, importText stmt left.default (left.named.map (·.2))⟩ := rfl
  rw [htrim, if_congr hsame rfl (if_congr hempty rfl rfl)]

/-- The edits that splicing lists are those of the harvest that it ends with. -/
theorem edits_of_splice (h : s.splice orders clean = .ok (s', spliced)) :
    spliced.edits = s'.edits orders clean := by
  unfold Harvest.splice at h
  split at h
  · exact absurd h (by simp)
  · dsimp only at h
    split at h
    · exact absurd h (by simp)
    · obtain ⟨rfl, rfl⟩ := Prod.mk.inj (Except.ok.inj h)
      rfl

end Harvest

end TypeGraft
