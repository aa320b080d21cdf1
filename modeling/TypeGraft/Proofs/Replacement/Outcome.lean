import TypeGraft.Proofs.Replacement

/-!
# What comes of a list of replacements

`TypeGraft.Replacement.applyAll` compares only neighbours, and changes the bytes as it goes along,
from the end of the slice to its start. None of that shows in what comes of it
(`TypeGraft.Replacement.applyAll_outcome`).

* It reports an overlap exactly if two entries overlap, wherever they stand in the list
  (`TypeGraft.Replacement.Clashes`). Entries in reading order of which no neighbours overlap lie
  one behind the other (`TypeGraft.Replacement.pairwise_before_of_clash?`), so that no others
  overlap either.
* Otherwise it fails exactly if an entry lies outside of the slice, and then it reports such an
  entry.
* Otherwise the slice is filled from left to right (`TypeGraft.Slots.fill`), with the entries in
  reading order, and with those that insert at one position in the order of the list
  (`TypeGraft.Replacement.LaidOut`). There is only one such order
  (`TypeGraft.Replacement.LaidOut.eq_inOrder`).
* It is the same for every order of the list that leaves the insertions at each position in their
  order (`TypeGraft.Replacement.Rearranges`).

Lists in reading order agree if they agree on what they have for each span
(`TypeGraft.Replacement.eq_of_filter_eq`). Putting entries in order leaves what they have for a
span as it is, since the sort is stable, and a span that is not empty has one entry at most.
-/

namespace TypeGraft

namespace Replacement

variable {raw : Bytes} {base : Span} {entries others ordered : List Replacement}

/-- Two entries of the list share a position. -/
def Clashes (entries : List Replacement) : Prop :=
  ∃ (i j : Nat) (a b : Replacement), i < j ∧ entries[i]? = some a ∧ entries[j]? = some b ∧
    a.span.overlaps b.span = true

/-- The same entries in another order, where those that insert at one position keep their order. -/
def Rearranges (others entries : List Replacement) : Prop :=
  others.Perm entries ∧ ∀ span : Span, span.start = span.stop →
    others.filter (·.span = span) = entries.filter (·.span = span)

/-- The entries in reading order, where those that insert at one position keep their order. -/
def LaidOut (ordered entries : List Replacement) : Prop :=
  Rearranges ordered entries ∧ ordered.Pairwise fun a b => a.span.le b.span = true

/-! ### Overlaps -/

theorem not_clashes_iff : ¬Clashes entries ↔ entries.Pairwise fun a b => a.span.Apart b.span := by
  rw [List.pairwise_iff_getElem]
  constructor
  · intro hclash i j hi hj hij
    rw [← Span.not_overlaps_iff, Bool.eq_false_iff]
    intro hover
    exact hclash ⟨i, j, _, _, hij, List.getElem?_eq_getElem hi, List.getElem?_eq_getElem hj, hover⟩
  · rintro hapart ⟨i, j, a, b, hij, ha, hb, hover⟩
    obtain ⟨hi, rfl⟩ := List.getElem?_eq_some_iff.mp ha
    obtain ⟨hj, rfl⟩ := List.getElem?_eq_some_iff.mp hb
    rw [(hapart i j hi hj hij).not_overlaps] at hover
    cases hover

theorem clashes_congr (hperm : others.Perm entries) : Clashes others ↔ Clashes entries := by
  rw [← not_iff_not, not_clashes_iff, not_clashes_iff]
  exact ⟨fun h => hperm.pairwise h fun h => h.symm, fun h => hperm.symm.pairwise h fun h => h.symm⟩

/-- **Comparing neighbours is enough** for entries in reading order. -/
theorem pairwise_before_of_clash? (hrange : ∀ x ∈ ordered, x.span.start ≤ x.span.stop)
    (hsorted : ordered.Pairwise fun a b => a.span.le b.span = true)
    (hclash : clash? ordered = none) :
    ordered.Pairwise fun a b => a.span.Before b.span := by
  induction ordered with
  | nil => exact List.Pairwise.nil
  | cons a ordered ih =>
    obtain ⟨hfirst, hsorted⟩ := List.pairwise_cons.mp hsorted
    obtain ⟨-, hrange⟩ := List.forall_mem_cons.mp hrange
    cases ordered with
    | nil => exact List.pairwise_singleton _ _
    | cons b rest =>
      rw [clash?] at hclash
      cases hover : a.span.overlaps b.span with
      | true => simp [hover] at hclash
      | false =>
        rw [hover, if_neg (by simp)] at hclash
        have hbehind := ih hrange hsorted hclash
        have hb := hrange b List.mem_cons_self
        have hab : a.span.Before b.span :=
          (Span.not_overlaps_iff.mp hover).before (hfirst b List.mem_cons_self) hb
        refine List.pairwise_cons.mpr ⟨List.forall_mem_cons.mpr ⟨hab, fun c hc => ?_⟩, hbehind⟩
        -- `a` ends before `b` starts, and `b` ends before `c` starts
        have hbc : b.span.Before c.span := (List.pairwise_cons.mp hbehind).1 c hc
        unfold Span.Before at *
        omega

theorem clash?_inOrder_eq_none_iff (hrange : ∀ x ∈ entries, x.span.start ≤ x.span.stop) :
    clash? (inOrder entries) = none ↔ ¬Clashes entries := by
  have hperm : (inOrder entries).Perm entries := List.mergeSort_perm _ _
  constructor
  · intro hclash
    rw [← clashes_congr hperm, not_clashes_iff]
    exact (pairwise_before_of_clash? (fun x hx => hrange x (hperm.mem_iff.mp hx))
      (sorted_inOrder entries) hclash).imp Span.Before.apart
  · exact fun hclash => clash?_eq_none (pairwise_before_inOrder hrange (not_clashes_iff.mp hclash))

/-- Which overlap is found depends on the spans only. -/
theorem clash?_congr (h : others.map (·.span) = entries.map (·.span)) :
    clash? others = clash? entries := by
  induction others generalizing entries with
  | nil =>
    rw [List.map_eq_nil_iff.mp h.symm]
  | cons a others ih =>
    cases entries with
    | nil => cases h
    | cons a' entries =>
      have ha : a.span = a'.span := (List.cons.inj h).1
      have hrest := (List.cons.inj h).2
      cases others with
      | nil =>
        rw [List.map_eq_nil_iff.mp hrest.symm]
        rfl
      | cons b others =>
        cases entries with
        | nil => cases hrest
        | cons b' entries =>
          have hb : b.span = b'.span := (List.cons.inj hrest).1
          rw [clash?, clash?, ha, hb, ih hrest]

/-! ### The reading order -/

/-- The first entry in reading order starts before the others. -/
theorem le_of_sorted {a b : Replacement} {as : List Replacement}
    (h : (a :: as).Pairwise fun a b => a.span.le b.span = true) (hb : b ∈ a :: as) :
    a.span.le b.span = true := by
  rcases List.mem_cons.mp hb with rfl | hb
  · exact Span.le_refl _
  · exact (List.pairwise_cons.mp h).1 b hb

theorem mem_of_filter_eq {as bs : List Replacement} {a : Replacement}
    (h : ∀ span : Span, as.filter (·.span = span) = bs.filter (·.span = span)) (ha : a ∈ as) :
    a ∈ bs := by
  have ha : a ∈ as.filter (·.span = a.span) := List.mem_filter.mpr ⟨ha, decide_eq_true rfl⟩
  rw [h] at ha
  exact List.mem_of_mem_filter ha

/-- **Lists in reading order** agree if they agree on what they have for each span. -/
theorem eq_of_filter_eq {as bs : List Replacement}
    (has : as.Pairwise fun a b => a.span.le b.span = true)
    (hbs : bs.Pairwise fun a b => a.span.le b.span = true)
    (h : ∀ span : Span, as.filter (·.span = span) = bs.filter (·.span = span)) : as = bs := by
  induction as generalizing bs with
  | nil =>
    refine (List.eq_nil_iff_forall_not_mem.mpr fun b hb => ?_).symm
    exact List.not_mem_nil (mem_of_filter_eq (fun span => (h span).symm) hb)
  | cons a as ih =>
    have ha : a ∈ bs := mem_of_filter_eq h List.mem_cons_self
    cases bs with
    | nil => exact absurd ha List.not_mem_nil
    | cons b bs =>
      have hb : b ∈ a :: as := mem_of_filter_eq (fun span => (h span).symm) List.mem_cons_self
      have hspan : a.span = b.span := Span.le_antisymm (le_of_sorted has hb) (le_of_sorted hbs ha)
      -- both stand first among the entries for their span
      have hab : a = b := by
        have hhead := h a.span
        rw [List.filter_cons_of_pos (by simp), List.filter_cons_of_pos (by simp [hspan])] at hhead
        exact (List.cons.inj hhead).1
      subst hab
      refine congrArg (a :: ·) (ih has.of_cons hbs.of_cons fun span => ?_)
      have htail := h span
      rw [List.filter_cons, List.filter_cons] at htail
      split at htail
      · exact (List.cons.inj htail).2
      · exact htail

/-- **Putting entries in order** leaves what they have for a span as it is. -/
theorem filter_inOrder (entries : List Replacement) (span : Span) :
    (inOrder entries).filter (·.span = span) = entries.filter (·.span = span) := by
  have hsame : (entries.filter (·.span = span)).Pairwise fun a b => a.span.le b.span = true := by
    refine List.pairwise_of_forall_mem_list fun a ha b hb => ?_
    rw [of_decide_eq_true (List.mem_filter.mp ha).2, of_decide_eq_true (List.mem_filter.mp hb).2]
    exact Span.le_refl span
  have hkept : (entries.filter (·.span = span)).Sublist (inOrder entries) := by
    refine List.sublist_mergeSort (fun a b c => ?_) (fun a b => ?_) hsame List.filter_sublist
    · exact Span.le_trans
    · exact Bool.or_eq_true_iff.mpr (Span.le_total a.span b.span)
  have hkept := hkept.filter fun x => decide (x.span = span)
  rw [List.filter_filter] at hkept
  simp only [Bool.and_self] at hkept
  have hperm : ((inOrder entries).filter (·.span = span)).Perm (entries.filter (·.span = span)) :=
    (List.mergeSort_perm _ _).filter _
  exact (hkept.eq_of_length hperm.length_eq.symm).symm

theorem laidOut_inOrder (entries : List Replacement) : LaidOut (inOrder entries) entries :=
  ⟨⟨List.mergeSort_perm _ _, fun span _ => filter_inOrder entries span⟩, sorted_inOrder entries⟩

/-- A span that is not empty has one entry at most, unless entries overlap. -/
theorem length_filter_le_one (hclash : ¬Clashes entries) {span : Span}
    (hspan : span.start < span.stop) :
    (entries.filter (·.span = span)).length ≤ 1 := by
  have hapart : (entries.filter (·.span = span)).Pairwise fun a b => a.span.Apart b.span :=
    (not_clashes_iff.mp hclash).sublist List.filter_sublist
  have hspans : ∀ x ∈ entries.filter (·.span = span), x.span = span :=
    fun x hx => of_decide_eq_true (List.mem_filter.mp hx).2
  generalize entries.filter (·.span = span) = found at hapart hspans ⊢
  rcases found with _ | ⟨x, _ | ⟨y, rest⟩⟩
  · exact Nat.zero_le _
  · exact le_rfl
  · have hxy : x.span.Apart y.span := (List.pairwise_cons.mp hapart).1 y List.mem_cons_self
    rw [hspans x List.mem_cons_self, hspans y (List.mem_cons_of_mem _ List.mem_cons_self)] at hxy
    unfold Span.Apart Span.Before at hxy
    omega

/-- **Rearranged entries have the same reading order**, unless they overlap. -/
theorem inOrder_congr (h : Rearranges others entries)
    (hrange : ∀ x ∈ entries, x.span.start ≤ x.span.stop) (hclash : ¬Clashes entries) :
    inOrder others = inOrder entries := by
  refine eq_of_filter_eq (sorted_inOrder others) (sorted_inOrder entries) fun span => ?_
  rw [filter_inOrder, filter_inOrder]
  have hperm : (others.filter (·.span = span)).Perm (entries.filter (·.span = span)) := h.1.filter _
  rcases lt_trichotomy span.start span.stop with hspan | hspan | hspan
  · have hone := length_filter_le_one hclash hspan
    generalize entries.filter (·.span = span) = found at hperm hone ⊢
    rcases found with _ | ⟨x, _ | ⟨y, rest⟩⟩
    · exact List.perm_nil.mp hperm
    · exact List.perm_singleton.mp hperm
    · simp at hone
  · exact h.2 span hspan
  · -- no entry has a span that ends before it starts
    have hnone : entries.filter (·.span = span) = [] := by
      refine List.filter_eq_nil_iff.mpr fun x hx hx' => ?_
      have := hrange x hx
      rw [of_decide_eq_true hx'] at this
      omega
    rw [hnone] at hperm ⊢
    exact List.perm_nil.mp hperm

theorem LaidOut.eq_inOrder (h : LaidOut ordered entries)
    (hrange : ∀ x ∈ entries, x.span.start ≤ x.span.stop) (hclash : ¬Clashes entries) :
    ordered = inOrder entries := by
  rw [← inOrder_congr h.1 hrange hclash, inOrder, List.mergeSort_of_pairwise h.2]

/-! ### What comes of it -/

theorem map_span_inOrder_congr (hperm : others.Perm entries) :
    (inOrder others).map (·.span) = (inOrder entries).map (·.span) := by
  refine List.Perm.eq_of_pairwise (fun a b _ _ => Span.le_antisymm)
    (List.pairwise_map.mpr (sorted_inOrder others))
    (List.pairwise_map.mpr (sorted_inOrder entries)) ?_
  exact (((List.mergeSort_perm _ _).trans hperm).trans (List.mergeSort_perm _ _).symm).map _

/-- **The order of the list does not matter**, but for that of insertions at one position. -/
theorem applyAll_congr (raw : Bytes) (base : Span) (h : Rearranges others entries)
    (hrange : ∀ x ∈ entries, x.span.start ≤ x.span.stop) :
    applyAll raw base others = applyAll raw base entries := by
  rw [applyAll, applyAll, clash?_congr (map_span_inOrder_congr h.1)]
  cases hclash : clash? (inOrder entries) with
  | some spans => rfl
  | none => rw [inOrder_congr h hrange ((clash?_inOrder_eq_none_iff hrange).mp hclash)]

/-- An overlap is reported exactly if two entries overlap. -/
theorem overlapping_iff (hrange : ∀ x ∈ entries, x.span.start ≤ x.span.stop) :
    (∃ a b, applyAll raw base entries = .error (.overlapping a b)) ↔ Clashes entries := by
  rw [← not_iff_not, ← clash?_inOrder_eq_none_iff hrange, applyAll]
  cases hclash : clash? (inOrder entries) with
  | some spans =>
    obtain ⟨a, b⟩ := spans
    refine ⟨fun h => absurd ⟨a, b, rfl⟩ h, fun h => ?_⟩
    cases h
  | none =>
    refine ⟨fun _ => rfl, ?_⟩
    rintro - ⟨a, b, herror⟩
    dsimp only at herror
    obtain ⟨-, out, hout⟩ | ⟨x, -, -, houtside⟩ := applyOrdered_cases raw base (inOrder entries)
    · rw [hout] at herror
      cases herror
    · rw [houtside] at herror
      cases herror

/-- Without an overlap, either all entries lie in the slice and are made, or one that does not is
reported. -/
theorem applyAll_cases (raw : Bytes) (base : Span)
    (hrange : ∀ x ∈ entries, x.span.start ≤ x.span.stop) (hclash : ¬Clashes entries) :
    (∀ x ∈ entries, base.contains x.span = true) ∧ (∃ out, applyAll raw base entries = .ok out) ∨
      ∃ x ∈ entries, base.contains x.span = false ∧
        applyAll raw base entries = .error (.outside x.span base) := by
  have hmem : ∀ x, x ∈ inOrder entries ↔ x ∈ entries := fun x => (List.mergeSort_perm _ _).mem_iff
  rw [applyAll, (clash?_inOrder_eq_none_iff hrange).mpr hclash]
  simpa only [hmem] using applyOrdered_cases raw base (inOrder entries)

/-- **Replacements are made all at once.** In bytes that lie at `base`, spans that overlap are
reported, and otherwise a span outside of `base`. Otherwise the gaps between the spans are kept, and
each span gets its text. The order of the list matters only where entries insert at one position. -/
theorem applyAll_outcome (hraw : (raw.length : Int) = base.stop - base.start)
    (hrange : ∀ x ∈ entries, x.span.start ≤ x.span.stop) :
    ((∃ a b, applyAll raw base entries = .error (.overlapping a b)) ↔ Clashes entries) ∧
    (¬Clashes entries →
      ((∃ failure, applyAll raw base entries = .error failure) ↔
        ∃ x ∈ entries, base.contains x.span = false) ∧
      ∀ failure, applyAll raw base entries = .error failure →
        ∃ x ∈ entries, base.contains x.span = false ∧ failure = .outside x.span base) ∧
    (¬Clashes entries → (∀ x ∈ entries, base.contains x.span = true) →
      (∃ ordered, LaidOut ordered entries) ∧ ∀ ordered, LaidOut ordered entries →
        applyAll raw base entries =
          .ok (Slots.fill raw base.start base.start (ordered.map slot))) ∧
    ∀ others, Rearranges others entries → applyAll raw base others = applyAll raw base entries := by
  refine ⟨overlapping_iff hrange, fun hclash => ?_, fun hclash hinside => ?_,
    fun others h => applyAll_congr raw base h hrange⟩
  · obtain ⟨hinside, out, hout⟩ | ⟨x, hx, houtside, herror⟩ := applyAll_cases raw base hrange hclash
    · have hmade : ∀ failure, applyAll raw base entries ≠ .error failure := by
        intro failure herror
        rw [hout] at herror
        cases herror
      have hnone : ¬∃ x ∈ entries, base.contains x.span = false := by
        rintro ⟨x, hx, houtside⟩
        rw [hinside x hx] at houtside
        cases houtside
      refine ⟨iff_of_false ?_ hnone, fun failure herror => absurd herror (hmade failure)⟩
      rintro ⟨failure, herror⟩
      exact hmade failure herror
    · rw [herror]
      refine ⟨⟨fun _ => ⟨x, hx, houtside⟩, fun _ => ⟨_, rfl⟩⟩, fun failure h => ?_⟩
      exact ⟨x, hx, houtside, (Except.error.inj h).symm⟩
  · refine ⟨⟨_, laidOut_inOrder entries⟩, fun ordered hordered => ?_⟩
    rw [hordered.eq_inOrder hrange hclash]
    exact applyAll_eq (fun x hx => Span.In.of_contains (hinside x hx) (hrange x hx))
      (not_clashes_iff.mp hclash) hraw.ge

/-- Two insertions between spans that touch, given from the back to the front. -/
def insertions : List Replacement :=
  [⟨⟨14, 16⟩, "Y"⟩, ⟨⟨12, 12⟩, "i"⟩, ⟨⟨10, 12⟩, "X"⟩, ⟨⟨12, 12⟩, "j"⟩]

theorem applyAll_outcome_insertions :
    ((Bytes.ofString "abcdef").length : Int) = 16 - 10 ∧
    (∀ x ∈ insertions, x.span.start ≤ x.span.stop) ∧
    applyAll (Bytes.ofString "abcdef") ⟨10, 16⟩ insertions = .ok (Bytes.ofString "XijcdY") := by
  have hraw : ((Bytes.ofString "abcdef").length : Int) = 16 - 10 := by decide +kernel
  have hrange : ∀ x ∈ insertions, x.span.start ≤ x.span.stop := by decide
  have hclash : ¬Clashes insertions := by
    rw [not_clashes_iff]
    unfold Span.Apart Span.Before
    decide
  have hlaid : LaidOut [⟨⟨10, 12⟩, "X"⟩, ⟨⟨12, 12⟩, "i"⟩, ⟨⟨12, 12⟩, "j"⟩, ⟨⟨14, 16⟩, "Y"⟩]
      insertions := by
    refine ⟨⟨by decide, fun span hspan => ?_⟩, by decide⟩
    have hfirst : (⟨10, 12⟩ : Span) ≠ span := by
      rintro rfl
      exact absurd hspan (by decide)
    have hlast : (⟨14, 16⟩ : Span) ≠ span := by
      rintro rfl
      exact absurd hspan (by decide)
    simp [insertions, List.filter_cons, hfirst, hlast]
  obtain ⟨-, -, hfilled, -⟩ := @applyAll_outcome _ ⟨10, 16⟩ _ hraw hrange
  refine ⟨hraw, hrange, ?_⟩
  rw [(hfilled hclash (by decide)).2 _ hlaid]
  decide +kernel

end Replacement

end TypeGraft
