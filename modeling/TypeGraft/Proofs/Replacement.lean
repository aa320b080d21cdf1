import TypeGraft.Proofs.Span
import TypeGraft.Proofs.Splice.Edits
import TypeGraft.Proofs.Text.Utf8

/-!
# Replacements that do not meet

`TypeGraft.Replacement.applyAll` refuses spans that share a position, sorts the entries and makes
them from the last to the first. Where no two spans share a position and all of them lie in the
slice, it does not fail, and the entries are made at once: what stands between the spans is kept,
and each span holds its text (`TypeGraft.Replacement.applyAll_eq`).

`TypeGraft.Slots.fill` says what that comes to, going over the slice from left to right. Its texts
are bytes, so that a slot can also be filled with what stands there
(`TypeGraft.Slots.fill_filterMap`).

If the slice is encoded, and all spans start and end where it can be cut, the result is encoded
(`TypeGraft.Slots.encoded_fill`).
-/

namespace TypeGraft

/-- Spans of a text, each with the bytes to put there. -/
abbrev Slots := List (Span × Bytes)

namespace Slots

variable {raw : Bytes} {base : Span} {slots : Slots}

/-- The bytes `raw`, which lie at `start`, from `position` on, with all slots filled. -/
def fill (raw : Bytes) (start : Int) : (position : Int) → Slots → Bytes
  | position, [] => raw.drop (position - start).toNat
  | position, (span, text) :: rest =>
    (raw.drop (position - start).toNat).take (span.start - position).toNat ++ text ++
      fill raw start span.stop rest

/-- The slots lie in `base` one behind the other. -/
abbrev Laid (base : Span) (slots : Slots) : Prop := Span.Row base (slots.map (·.1))

/-- Up to the first slot the bytes are kept. -/
theorem fill_eq_append {p q : Int} (hp : base.start ≤ p) (hpq : p ≤ q)
    (hslots : ∀ slot ∈ slots, q ≤ slot.1.start) :
    fill raw base.start p slots =
      (raw.drop (p - base.start).toNat).take (q - p).toNat ++ fill raw base.start q slots := by
  have hq : (q - base.start).toNat = (p - base.start).toNat + (q - p).toNat := by omega
  cases slots with
  | nil => rw [fill, fill, hq, ← List.drop_drop, List.take_append_drop]
  | cons slot slots =>
    have hstart := hslots slot List.mem_cons_self
    have hsplit : (slot.1.start - p).toNat = (q - p).toNat + (slot.1.start - q).toNat := by omega
    rw [fill, fill, hsplit, List.take_add, hq, List.drop_drop]
    simp only [List.append_assoc]

theorem Laid.behind {slot : Span × Bytes} (h : Laid base (slot :: slots)) :
    ∀ s ∈ slots, slot.1.stop ≤ s.1.start :=
  fun _ hs => (List.pairwise_cons.mp h.inOrder).1 _ (List.mem_map_of_mem hs)

/-- **A slot that is filled with what stands there** may as well be left out. -/
theorem fill_filterMap {α : Type} {items : List α} {slot : α → Span × Bytes}
    {kept? : α → Option (Span × Bytes)} {p : Int} (h : Laid base (items.map slot))
    (hp : base.start ≤ p) (hslots : ∀ x ∈ items, p ≤ (slot x).1.start)
    (hkept : ∀ x ∈ items, kept? x = some (slot x) ∨ kept? x = none ∧ (slot x).2 =
      (raw.drop ((slot x).1.start - base.start).toNat).take
        ((slot x).1.stop - (slot x).1.start).toNat) :
    fill raw base.start p (items.filterMap kept?) = fill raw base.start p (items.map slot) := by
  induction items generalizing p with
  | nil => rfl
  | cons x items ih =>
    have hslot := hslots x List.mem_cons_self
    obtain ⟨hstart, hrange, hstop⟩ := h.inside (slot x).1 List.mem_cons_self
    have hbehind : ∀ y ∈ items, (slot x).1.stop ≤ (slot y).1.start :=
      fun y hy => Laid.behind h _ (List.mem_map_of_mem hy)
    have hrest := ih h.tail (p := (slot x).1.stop) (hstart.trans hrange) hbehind
      fun y hy => hkept y (List.mem_cons_of_mem _ hy)
    rw [List.map_cons, fill]
    rcases hkept x List.mem_cons_self with hsome | ⟨hnone, hown⟩
    · rw [List.filterMap_cons_some hsome, fill, hrest]
    · have hfar : ∀ s ∈ items.filterMap kept?, (slot x).1.stop ≤ s.1.start := by
        intro s hs
        obtain ⟨y, hy, hs⟩ := List.mem_filterMap.mp hs
        rcases hkept y (List.mem_cons_of_mem _ hy) with hsome | ⟨hnone, -⟩
        · rw [← Option.some.inj (hsome.symm.trans hs)]
          exact hbehind y hy
        · rw [hnone] at hs
          exact absurd hs (by simp)
      rw [List.filterMap_cons_none hnone,
        fill_eq_append hp hslot fun s hs => hrange.trans (hfar s hs),
        fill_eq_append hstart hrange hfar, hrest, ← hown, List.append_assoc]

/-- Cutting a text at a position of `base`. -/
def CutAt (raw : Bytes) (base : Span) (p : Int) : Prop :=
  Bytes.Encoded (raw.take (p - base.start).toNat)

/-- **Filling slots of encoded bytes** with encoded bytes, where all slots start and end at cuts. -/
theorem encoded_fill {p : Int} (h : slots.Laid base) (hraw : raw.Encoded)
    (hcuts : ∀ slot ∈ slots, CutAt raw base slot.1.start ∧ CutAt raw base slot.1.stop)
    (htexts : ∀ slot ∈ slots, slot.2.Encoded) (hp : base.start ≤ p) (hcut : CutAt raw base p)
    (hslots : ∀ slot ∈ slots, p ≤ slot.1.start) : (fill raw base.start p slots).Encoded := by
  induction slots generalizing p with
  | nil =>
    rw [fill]
    refine Bytes.Encoded.of_append (a := raw.take (p - base.start).toNat) ?_ hcut
    rwa [List.take_append_drop]
  | cons slot slots ih =>
    have hslot := hslots slot List.mem_cons_self
    obtain ⟨hstart, hrange, -⟩ := h.inside slot.1 List.mem_cons_self
    obtain ⟨hcutStart, hcutStop⟩ := hcuts slot List.mem_cons_self
    have hkept : Bytes.Encoded
        ((raw.drop (p - base.start).toNat).take (slot.1.start - p).toNat) := by
      have hbetween := Bytes.Encoded.between (by omega) hcut hcutStart
      rwa [List.drop_take, show (slot.1.start - base.start).toNat - (p - base.start).toNat =
        (slot.1.start - p).toNat by omega] at hbetween
    rw [fill]
    refine (hkept.append (htexts slot List.mem_cons_self)).append ?_
    exact ih h.tail (fun s hs => hcuts s (List.mem_cons_of_mem _ hs))
      (fun s hs => htexts s (List.mem_cons_of_mem _ hs)) (by omega) hcutStop h.behind

end Slots

namespace Replacement

variable {raw : Bytes} {base : Span} {entries : List Replacement}

/-- The slot of a replacement, with its text. -/
def slot (x : Replacement) : Span × Bytes := (x.span, Bytes.ofString x.text)

theorem clash?_eq_none (h : entries.Pairwise fun a b => a.span.Before b.span) :
    clash? entries = none := by
  induction entries with
  | nil => rfl
  | cons x entries ih =>
    cases entries with
    | nil => rfl
    | cons y entries =>
      have hxy := (List.pairwise_cons.mp h).1 y List.mem_cons_self
      have hover : x.span.overlaps y.span = false := Span.Apart.not_overlaps (Or.inl hxy)
      rw [clash?, hover, if_neg (by simp)]
      exact ih (List.pairwise_cons.mp h).2

/-- **Replacements in order** that lie one behind the other are made at once. -/
theorem applyOrdered_eq (h : Slots.Laid base (entries.map slot))
    (hraw : base.stop - base.start ≤ raw.length) :
    applyOrdered raw base entries =
      .ok (Slots.fill raw base.start base.start (entries.map slot)) := by
  induction entries with
  | nil =>
    rw [applyOrdered, List.map_nil, Slots.fill, Int.sub_self]
    rfl
  | cons x entries ih =>
    have hin : x.span.In base := h.inside _ List.mem_cons_self
    have hstart : base.start ≤ x.span.start := hin.1
    have hrange : x.span.start ≤ x.span.stop := hin.2.1
    have hbehind : ∀ s ∈ entries.map slot, x.span.stop ≤ s.1.start := Slots.Laid.behind h
    have hplace : x.span.rebased? base =
        some ⟨x.span.start - base.start, x.span.stop - base.start⟩ := by
      rw [Span.rebased?, if_pos hin.contains]
    -- the rest was made behind `x`, so the bytes up to the end of `x` are still those of `raw`
    have hkept : ∀ q, base.start ≤ q → q ≤ x.span.stop →
        Slots.fill raw base.start base.start (entries.map slot) =
          raw.take (q - base.start).toNat ++ Slots.fill raw base.start q (entries.map slot) := by
      intro q hq hqs
      rw [Slots.fill_eq_append le_rfl hq fun s hs => hqs.trans (hbehind s hs),
        Int.sub_self]
      rfl
    have hlength : ∀ q, q ≤ x.span.stop →
        (raw.take (q - base.start).toNat).length = (q - base.start).toNat := by
      intro q hqs
      have hstop : x.span.stop ≤ base.stop := hin.2.2
      rw [List.length_take]
      omega
    rw [applyOrdered, ih h.tail]
    dsimp only
    rw [hplace]
    dsimp only
    rw [Span.take_clamp (Int.sub_nonneg_of_le hstart),
      Span.drop_clamp (Int.sub_nonneg_of_le (hstart.trans hrange)), List.map_cons, slot, Slots.fill,
      Int.sub_self]
    congr 2
    · rw [hkept x.span.start hstart hrange, List.take_left' (hlength _ hrange)]
      rfl
    · rw [hkept x.span.stop (hstart.trans hrange) le_rfl, List.drop_left' (hlength _ le_rfl)]

theorem pairwise_before_inOrder (hrange : ∀ x ∈ entries, x.span.start ≤ x.span.stop)
    (hapart : entries.Pairwise fun a b => a.span.Apart b.span) :
    (inOrder entries).Pairwise fun a b => a.span.Before b.span := by
  have hperm : (inOrder entries).Perm entries := List.mergeSort_perm _ _
  have hsorted := (sorted_inOrder entries).and
    (hperm.symm.pairwise hapart fun h => h.symm)
  refine hsorted.imp_of_mem fun {a b} _ hb h => ?_
  exact h.2.before h.1 (hrange b (hperm.mem_iff.mp hb))

/-- Replacements that do not meet lie one behind the other once they are put in order. -/
theorem laid_inOrder (hin : ∀ x ∈ entries, x.span.In base)
    (hapart : entries.Pairwise fun a b => a.span.Apart b.span) :
    Slots.Laid base ((inOrder entries).map slot) := by
  have hspans : ((inOrder entries).map slot).map (·.1) = (inOrder entries).map (·.span) :=
    List.map_map
  refine ⟨?_, ?_⟩ <;> rw [hspans]
  · intro a ha
    obtain ⟨x, hx, rfl⟩ := List.mem_map.mp ha
    exact hin x ((List.mergeSort_perm _ _).mem_iff.mp hx)
  · exact List.pairwise_map.mpr (pairwise_before_inOrder (fun x hx => (hin x hx).2.1) hapart)

/-- **Replacements that do not meet** are made at once. -/
theorem applyAll_eq (hin : ∀ x ∈ entries, x.span.In base)
    (hapart : entries.Pairwise fun a b => a.span.Apart b.span)
    (hraw : base.stop - base.start ≤ raw.length) :
    applyAll raw base entries =
      .ok (Slots.fill raw base.start base.start ((inOrder entries).map slot)) := by
  have hlaid := laid_inOrder hin hapart
  have hclash := clash?_eq_none (pairwise_before_inOrder (fun x hx => (hin x hx).2.1) hapart)
  rw [applyAll, hclash]
  exact applyOrdered_eq hlaid hraw

/-- Spans that are not empty are in order if each lies before the next ones. -/
theorem ordered_of_before (hrange : ∀ x ∈ entries, x.span.start < x.span.stop)
    (hbefore : entries.Pairwise fun a b => a.span.Before b.span) : Ordered entries := by
  refine hbefore.imp_of_mem fun {a b} ha hb h => ?_
  have hab : a.span.stop ≤ b.span.start := h
  have ha := hrange a ha
  refine ⟨Span.le_iff.mpr (Or.inl (by omega)), fun heq => ?_⟩
  rw [heq] at hab ha
  omega

/-- **Replacements that stand in a row**, in whatever order they are given. -/
theorem applyAll_of_perm {ordered : List Replacement} (hperm : ordered.Perm entries)
    (h : Slots.Laid base (ordered.map slot)) (hrange : ∀ x ∈ ordered, x.span.start < x.span.stop)
    (hraw : base.stop - base.start ≤ raw.length) :
    applyAll raw base entries =
      .ok (Slots.fill raw base.start base.start (ordered.map slot)) := by
  have hbefore : ordered.Pairwise fun a b => a.span.Before b.span := by
    have hinOrder := h.inOrder
    rw [List.map_map] at hinOrder
    exact List.pairwise_map.mp hinOrder
  rw [applyAll, inOrder_eq hperm (ordered_of_before hrange hbefore), clash?_eq_none hbefore]
  exact applyOrdered_eq h hraw

/-- **Replacements in order** are all made if all of them lie in the slice, and one that does not is
reported otherwise. -/
theorem applyOrdered_cases (raw : Bytes) (base : Span) (entries : List Replacement) :
    (∀ x ∈ entries, base.contains x.span = true) ∧
    (∃ out, applyOrdered raw base entries = .ok out) ∨
      ∃ x ∈ entries, base.contains x.span = false ∧
        applyOrdered raw base entries = .error (.outside x.span base) := by
  induction entries with
  | nil => exact Or.inl ⟨fun _ h => absurd h List.not_mem_nil, raw, rfl⟩
  | cons x entries ih =>
    obtain ⟨hrest, out, hout⟩ | ⟨y, hy, houtside, herror⟩ := ih
    · rw [applyOrdered, hout]
      dsimp only
      rw [Span.rebased?]
      cases hx : base.contains x.span with
      | true => exact Or.inl ⟨List.forall_mem_cons.mpr ⟨hx, hrest⟩, _, rfl⟩
      | false => exact Or.inr ⟨x, List.mem_cons_self, hx, rfl⟩
    · rw [applyOrdered, herror]
      exact Or.inr ⟨y, List.mem_cons_of_mem _ hy, houtside, rfl⟩

/-- **Replacements that do not meet** can be made, whatever the length of the text. -/
theorem exists_applyAll (raw : Bytes) (hin : ∀ x ∈ entries, x.span.In base)
    (hapart : entries.Pairwise fun a b => a.span.Apart b.span) :
    ∃ out, applyAll raw base entries = .ok out := by
  have hclash := clash?_eq_none (pairwise_before_inOrder (fun x hx => (hin x hx).2.1) hapart)
  rw [applyAll, hclash]
  obtain ⟨-, hmade⟩ | ⟨x, hx, houtside, -⟩ := applyOrdered_cases raw base (inOrder entries)
  · exact hmade
  · rw [(hin x ((List.mergeSort_perm _ _).mem_iff.mp hx)).contains] at houtside
    cases houtside

end Replacement

end TypeGraft
