import Mathlib.Data.List.Basic
import TypeGraft.Span

/-!
# How spans lie

Two spans that share no position are `TypeGraft.Span.Apart`: one of them is `Span.Before` the other
one. A span that lies within another one is `Span.In` it, and a list of spans that lie in one span,
one behind the other, is a `Span.Row`. Rows are put together from rows
(`TypeGraft.Span.Row.flatMap`).
-/

namespace TypeGraft

namespace Span

variable {a b : Span}

/-- One span ends before the other one starts. -/
def Before (a b : Span) : Prop := a.stop ≤ b.start

/-- Two spans that share no position. -/
def Apart (a b : Span) : Prop := a.Before b ∨ b.Before a

theorem Apart.symm (h : a.Apart b) : b.Apart a := Or.symm h

theorem not_overlaps_iff : a.overlaps b = false ↔ a.Apart b := by
  unfold overlaps Apart Before
  rw [Bool.and_eq_false_iff, decide_eq_false_iff_not, decide_eq_false_iff_not]
  omega

theorem Apart.not_overlaps (h : a.Apart b) : a.overlaps b = false := not_overlaps_iff.mpr h

/-- The span is a range, and lies within `base`. -/
def In (a base : Span) : Prop := base.start ≤ a.start ∧ a.start ≤ a.stop ∧ a.stop ≤ base.stop

theorem In.contains (h : a.In b) : b.contains a = true := by
  unfold In at h
  unfold Span.contains
  rw [Bool.and_eq_true, decide_eq_true_eq, decide_eq_true_eq]
  exact ⟨h.1, h.2.2⟩

theorem In.trans {c : Span} (h : a.In b) (h' : b.In c) : a.In c := by
  unfold In at *
  omega

theorem le_iff : a.le b = true ↔ a.start < b.start ∨ a.start = b.start ∧ a.stop ≤ b.stop := by
  unfold le
  rw [Bool.or_eq_true, Bool.and_eq_true, decide_eq_true_eq, beq_iff_eq, decide_eq_true_eq]

theorem le_refl (a : Span) : a.le a = true := by
  rw [le_iff]
  omega

theorem le_total (a b : Span) : a.le b = true ∨ b.le a = true := by
  rw [le_iff, le_iff]
  omega

theorem le_trans {c : Span} (hab : a.le b = true) (hbc : b.le c = true) : a.le c = true := by
  rw [le_iff] at *
  omega

theorem le_antisymm (h : a.le b = true) (h' : b.le a = true) : a = b := by
  rw [le_iff] at h h'
  obtain ⟨a₁, a₂⟩ := a
  obtain ⟨b₁, b₂⟩ := b
  dsimp only at h h'
  have h₁ : a₁ = b₁ := by omega
  have h₂ : a₂ = b₂ := by omega
  rw [h₁, h₂]

theorem Before.mono {c d : Span} (h : a.Before b) (hc : c.In a) (hd : d.In b) : c.Before d := by
  unfold Before In at *
  omega

theorem Before.apart (h : a.Before b) : a.Apart b := Or.inl h

theorem In.of_contains (h : b.contains a = true) (hrange : a.start ≤ a.stop) : a.In b := by
  unfold Span.contains at h
  rw [Bool.and_eq_true, decide_eq_true_eq, decide_eq_true_eq] at h
  exact ⟨h.1, hrange, h.2⟩

/-- In reading order, spans that share no position follow each other. -/
theorem Apart.before (h : a.Apart b) (hle : a.le b = true) (hb : b.start ≤ b.stop) :
    a.Before b := by
  rw [le_iff] at hle
  unfold Apart Before at *
  omega

/-- Spans of `base`, one behind the other. -/
structure Row (base : Span) (spans : List Span) : Prop where
  inside : ∀ a ∈ spans, a.In base
  inOrder : spans.Pairwise Before

namespace Row

variable {base : Span} {spans : List Span}

theorem nil (base : Span) : Row base [] := ⟨fun _ h => absurd h List.not_mem_nil, List.Pairwise.nil⟩

theorem single (h : a.In base) : Row base [a] :=
  ⟨fun b hb => by rwa [List.mem_singleton.mp hb], List.pairwise_singleton _ _⟩

theorem tail (h : Row base (a :: spans)) : Row base spans :=
  ⟨fun b hb => h.inside b (List.mem_cons_of_mem _ hb), (List.pairwise_cons.mp h.inOrder).2⟩

/-- Behind the first span there are the others. -/
theorem behind (h : Row base (a :: spans)) : Row ⟨a.stop, base.stop⟩ spans := by
  refine ⟨fun b hb => ?_, h.tail.inOrder⟩
  obtain ⟨-, hrange, hlast⟩ := h.inside b (List.mem_cons_of_mem _ hb)
  exact ⟨(List.pairwise_cons.mp h.inOrder).1 b hb, hrange, hlast⟩

theorem sublist {some : List Span} (h : Row base spans) (hsome : some.Sublist spans) :
    Row base some :=
  ⟨fun b hb => h.inside b (hsome.subset hb), h.inOrder.sublist hsome⟩

theorem mono {wide : Span} (h : Row base spans) (hwide : base.In wide) : Row wide spans :=
  ⟨fun b hb => (h.inside b hb).trans hwide, h.inOrder⟩

theorem append {others : List Span} (h : Row base spans) (h' : Row base others)
    (hbefore : ∀ a ∈ spans, ∀ b ∈ others, a.Before b) : Row base (spans ++ others) :=
  ⟨fun b hb => (List.mem_append.mp hb).elim (h.inside b) (h'.inside b),
    List.pairwise_append.mpr ⟨h.inOrder, h'.inOrder, hbefore⟩⟩

/-- Spans that are not empty stand in a row once. -/
theorem nodup (h : Row base spans) (hlong : ∀ a ∈ spans, a.start < a.stop) : spans.Nodup := by
  refine h.inOrder.imp_of_mem fun {a b} ha _ hbefore heq => ?_
  have := hlong a ha
  rw [Before, ← heq] at hbefore
  omega

/-- **Rows within the spans of a row** make up one row. -/
theorem flatMap {α : Type} {items : List α} {place : α → Span} {inner : α → List Span}
    (h : Row base (items.map place)) (hinner : ∀ x ∈ items, Row (place x) (inner x)) :
    Row base (items.flatMap inner) := by
  induction items with
  | nil => exact nil base
  | cons x items ih =>
    have hx := hinner x List.mem_cons_self
    refine (hx.mono (h.inside _ List.mem_cons_self)).append
      (ih h.tail fun y hy => hinner y (List.mem_cons_of_mem _ hy)) fun a ha b hb => ?_
    obtain ⟨y, hy, hb⟩ := List.mem_flatMap.mp hb
    exact ((List.pairwise_cons.mp h.inOrder).1 _ (List.mem_map_of_mem hy)).mono (hx.inside a ha)
      ((hinner y (List.mem_cons_of_mem _ hy)).inside b hb)

/-- Things of which each leads to one span in it, if to any. -/
theorem filterMap {α β : Type} {items : List α} {place : α → Span} {part? : α → Option β}
    {span : β → Span} (h : Row base (items.map place))
    (hparts : ∀ x ∈ items, ∀ y, part? x = some y → (span y).In (place x)) :
    Row base ((items.filterMap part?).map span) := by
  rw [List.filterMap_eq_flatMap_toList, List.map_flatMap]
  refine h.flatMap fun x hx => ?_
  cases hpart : part? x with
  | none => exact nil _
  | some y => exact single (hparts x hx y hpart)

end Row

/-- The spans of things that were found, each in the place of another one. -/
theorem sublist_filterMap {α β : Type} {items : List α} {place : α → Span} {part? : α → Option β}
    {span : β → Span} (hparts : ∀ x ∈ items, ∀ y, part? x = some y → span y = place x) :
    ((items.filterMap part?).map span).Sublist (items.map place) := by
  induction items with
  | nil => exact List.Sublist.refl _
  | cons x items ih =>
    have hrest := ih fun y hy => hparts y (List.mem_cons_of_mem _ hy)
    rw [List.filterMap_cons, List.map_cons]
    split
    · exact hrest.cons _
    · next y hy =>
      rw [List.map_cons, hparts x List.mem_cons_self y hy]
      exact hrest.cons_cons _

theorem take_clamp {α : Type} {items : List α} {position : Int} (h : 0 ≤ position) :
    items.take (clamp items.length position) = items.take position.toNat := by
  rw [clamp, if_neg (by omega), ← List.take_eq_take_min]

theorem drop_clamp {α : Type} {items : List α} {position : Int} (h : 0 ≤ position) :
    items.drop (clamp items.length position) = items.drop position.toNat := by
  rw [clamp, if_neg (by omega), ← List.drop_eq_drop_min]

/-- What lies in a slice of a text is a slice of the text. -/
theorem slice_eq_of_in {α : Type} {items : List α} (h : a.In b) (hb : 0 ≤ b.start)
    (hlength : b.stop ≤ items.length) : a.slice items =
      ((b.slice items).drop (a.start - b.start).toNat).take (a.stop - a.start).toNat := by
  have hclamp : ∀ p : Int, 0 ≤ p → p ≤ items.length → clamp items.length p = p.toNat := by
    intro p hp hle
    rw [clamp, if_neg (by omega), Nat.min_eq_left (by omega)]
  obtain ⟨hstart, hrange, hstop⟩ := h
  rw [slice, slice, hclamp a.start (by omega) (by omega), hclamp a.stop (by omega) (by omega),
    hclamp b.start (by omega) (by omega), hclamp b.stop (by omega) (by omega), List.drop_drop,
    show b.start.toNat + (a.start - b.start).toNat = a.start.toNat by omega, List.drop_take,
    List.drop_take, List.take_take]
  congr 1
  omega

/-- How long a slice is. -/
theorem length_slice {α : Type} {items : List α} (hstart : 0 ≤ a.start)
    (hrange : a.start ≤ a.stop) (hlength : a.stop ≤ items.length) :
    ((a.slice items).length : Int) = a.stop - a.start := by
  rw [slice, List.length_drop, List.length_take, clamp, clamp, if_neg (by omega),
    if_neg (by omega)]
  omega

end Span

end TypeGraft
