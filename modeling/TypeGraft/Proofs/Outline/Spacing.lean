import TypeGraft.Proofs.Outline.Layout

/-!
# What is removed from a script

A statement may be removed together with the line break behind it (`TypeGraft.Harvest.erasure`). No
other statement of the script starts with a line break, so what is removed still ends in front of
the next statement: two statements are `TypeGraft.Span.Clear` of each other.

Each declaration and each import of a script is a statement of its own that makes no requests
(`TypeGraft.Outline.Spaced`), since no statement adds two things to the outline
(`TypeGraft.Outline.gives_visit`).
-/

namespace TypeGraft

open Syntax Syntax.Node

variable {source : Bytes} {a b : Span}

/-! ### Line breaks -/

/-- The span with the line break behind it. -/
def Span.widened (source : Bytes) (a : Span) : Span :=
  (Harvest.erasure ⟨true, false⟩ source a).span

/-- Two spans that share no position, even if one of them is removed with the line break behind
it. -/
def Span.Clear (source : Bytes) (a b : Span) : Prop :=
  (a.widened source).Before b ∨ (b.widened source).Before a

theorem Span.Clear.symm (h : a.Clear source b) : b.Clear source a := Or.symm h

theorem Span.Clear.apart {c d : Span} (h : a.Clear source b) (hc : c.In (a.widened source))
    (hd : d.In (b.widened source)) : c.Apart d := by
  have hstart : b.start ≤ d.start := hd.1
  have hstart' : a.start ≤ c.start := hc.1
  have hstop := hc.2.2
  have hstop' := hd.2.2
  unfold Clear Before at h
  unfold Apart Before
  omega

/-- What is removed behind a span is a line break, if anything. -/
theorem Harvest.exists_blank (ha : a.Cuts source) (clean : Cleaning) :
    ∃ blank rest : Bytes, source.drop a.stop.toNat = blank ++ rest ∧
      (erasure clean source a).span = ⟨a.start, a.stop + blank.length⟩ ∧
      (blank = [] ∨ blank = [10] ∨ blank = [13, 10]) := by
  unfold erasure
  rw [Span.drop_clamp (ha.inside.1.trans ha.inside.2.1)]
  cases clean.lineBreaks with
  | false => exact ⟨[], _, rfl, rfl, Or.inl rfl⟩
  | true =>
    simp only [Bool.not_true, Bool.false_eq_true, if_false]
    split
    · next rest hrest => exact ⟨[13, 10], rest, hrest, rfl, Or.inr (Or.inr rfl)⟩
    · next rest hrest => exact ⟨[10], rest, hrest, rfl, Or.inr (Or.inl rfl)⟩
    · exact ⟨[], _, rfl, rfl, Or.inl rfl⟩

theorem Harvest.erasure_eq_or (source : Bytes) (a : Span) (clean : Cleaning) :
    (erasure clean source a).span = a ∨ (erasure clean source a).span = a.widened source := by
  unfold Span.widened erasure
  cases clean.lineBreaks with
  | false => exact Or.inl (by simp)
  | true => exact Or.inr rfl

namespace Span.Cuts

variable (ha : a.Cuts source)

include ha

theorem stop_nonneg : 0 ≤ a.stop := ha.inside.1.trans ha.inside.2.1

/-- **What is removed** with a span can be cut out as well. -/
theorem erasure (clean : Cleaning) : (Harvest.erasure clean source a).span.Cuts source := by
  obtain ⟨blank, rest, hdrop, hspan, hblank⟩ := Harvest.exists_blank ha clean
  have hstop := ha.stop_nonneg
  have hlength := congrArg List.length hdrop
  rw [List.length_drop, List.length_append] at hlength
  have hinside : a.stop ≤ source.length := ha.inside.2.2
  rw [hspan]
  refine ⟨⟨ha.inside.1, ?_, ?_⟩, fun henc => ⟨(ha.encoded henc).1, ?_⟩⟩
  · exact ha.inside.2.1.trans (Int.le_add_of_nonneg_right (Int.natCast_nonneg _))
  · change a.stop + blank.length ≤ source.length
    omega
  · -- a line break is made of characters of one byte
    have hcut : Bytes.Encoded (source.take a.stop.toNat) := by
      simpa [Slots.CutAt, Span.whole] using (ha.encoded henc).2
    have hrest : Bytes.Encoded (blank ++ rest) := by
      rw [← hdrop]
      refine Bytes.Encoded.of_append (a := source.take a.stop.toNat) ?_ hcut
      rwa [List.take_append_drop]
    have henc' : Bytes.Encoded blank := by
      rcases hblank with rfl | rfl | rfl
      · exact Bytes.encoded_nil
      · exact (hrest.of_cons (by decide)).1
      · obtain ⟨hcr, hlf⟩ := hrest.of_cons (b := 13) (by decide)
        exact hcr.append (hlf.of_cons (by decide)).1
    have htake : source.take (a.stop + blank.length - 0).toNat =
        source.take a.stop.toNat ++ blank := by
      rw [show (a.stop + blank.length - 0).toNat = a.stop.toNat + blank.length by omega,
        List.take_add, hdrop, List.take_left]
    rw [Slots.CutAt]
    exact htake ▸ hcut.append henc'

/-- **What is removed with a span** ends in front of what starts with no line break. -/
theorem widened_before (hb : ¬BreaksLine source b.start) (h : a.Before b) :
    (a.widened source).Before b := by
  obtain ⟨blank, rest, hdrop, hspan, hblank⟩ := Harvest.exists_blank ha ⟨true, false⟩
  have hstop := ha.stop_nonneg
  have hfirst : blank.head? ≠ none → b.start ≠ a.stop := by
    rintro hsome heq
    rw [BreaksLine, heq, hdrop] at hb
    rcases hblank with rfl | rfl | rfl <;> simp at hb hsome
  have hsecond : blank = [13, 10] → b.start ≠ a.stop + 1 := by
    rintro rfl heq
    have hnext : source.drop (a.stop + 1).toNat = 10 :: rest := by
      rw [show (a.stop + 1).toNat = a.stop.toNat + 1 by omega, ← List.drop_drop, hdrop]
      rfl
    exact hb (Or.inl (by rw [heq, hnext]; rfl))
  unfold Before at *
  rw [widened, hspan]
  rcases hblank with rfl | rfl | rfl
  · simpa using h
  · have := hfirst (by simp)
    simp only [List.length_singleton]
    omega
  · have := hfirst (by simp)
    have := hsecond rfl
    simp only [List.length_cons, List.length_nil]
    omega

theorem in_widened : a.In (a.widened source) := by
  obtain ⟨blank, rest, -, hspan, -⟩ := Harvest.exists_blank ha ⟨true, false⟩
  rw [widened, hspan]
  exact ⟨le_rfl, ha.inside.2.1, Int.le_add_of_nonneg_right (Int.natCast_nonneg _)⟩

theorem erasure_in (clean : Cleaning) :
    (Harvest.erasure clean source a).span.In (a.widened source) := by
  rcases Harvest.erasure_eq_or source a clean with h | h
  · rw [h]
    exact ha.in_widened
  · rw [h]
    exact ⟨le_rfl, (ha.erasure ⟨true, false⟩).inside.2.1, le_rfl⟩

end Span.Cuts

namespace Outline

variable {stmts done : List Node} {o o' : Outline} {events : List Event} {strict : Bool}

/-- A span is that of one of some statements, which makes no requests. -/
def IsStatement (stmts : List Node) (a : Span) : Prop :=
  ∃ stmt ∈ stmts, a = stmt.span ∧ Request.expressions stmt = []

/-- **What an outline lists** are statements of their own. -/
structure Spaced (source : Bytes) (stmts : List Node) (declarations : Table String Declaration)
    (imports : List Import) : Prop where
  laid : ∀ name d, declarations.get? name = some d → d.Laid source
  declaration : ∀ name d, declarations.get? name = some d → IsStatement stmts d.statement
  import_ : ∀ i ∈ imports, IsStatement stmts i.span
  apart : ∀ name name' d d', declarations.get? name = some d →
    declarations.get? name' = some d' → name ≠ name' → d.statement.Clear source d'.statement
  importsApart : imports.Pairwise fun i j => i.span.Clear source j.span
  between : ∀ name d, declarations.get? name = some d → ∀ i ∈ imports,
    d.statement.Clear source i.span

theorem spaced_nil (source : Bytes) : Spaced source [] [] [] where
  laid name d h := absurd h (by simp)
  declaration name d h := absurd h (by simp)
  import_ i h := absurd h List.not_mem_nil
  apart name _ d _ h := absurd h (by simp)
  importsApart := List.Pairwise.nil
  between name d h := absurd h (by simp)

theorem IsStatement.mono {a : Span} (h : IsStatement done a)
    (hstmts : ∀ stmt ∈ done, stmt ∈ stmts) :
    IsStatement stmts a := by
  obtain ⟨stmt, hstmt, ha⟩ := h
  exact ⟨stmt, hstmts stmt hstmt, ha⟩

namespace Spaced

variable {declarations : Table String Declaration} {imports : List Import}

theorem mono (h : Spaced source done declarations imports)
    (hstmts : ∀ stmt ∈ done, stmt ∈ stmts) : Spaced source stmts declarations imports where
  laid := h.laid
  declaration name d hget := (h.declaration name d hget).mono hstmts
  import_ i hi := (h.import_ i hi).mono hstmts
  apart := h.apart
  importsApart := h.importsApart
  between := h.between

theorem addImport (h : Spaced source stmts declarations imports) {i : Import}
    (hi : IsStatement stmts i.span)
    (hdeclarations : ∀ name d, declarations.get? name = some d → d.statement.Clear source i.span)
    (himports : ∀ j ∈ imports, j.span.Clear source i.span) :
    Spaced source stmts declarations (imports ++ [i]) where
  laid := h.laid
  declaration := h.declaration
  import_ j hj := (List.mem_append.mp hj).elim (h.import_ j) fun hj => List.mem_singleton.mp hj ▸ hi
  apart := h.apart
  importsApart := List.pairwise_append.mpr ⟨h.importsApart, List.pairwise_singleton _ _,
    fun j hj _ hk => List.mem_singleton.mp hk ▸ himports j hj⟩
  between name d hget j hj := (List.mem_append.mp hj).elim (h.between name d hget j)
    fun hj => List.mem_singleton.mp hj ▸ hdeclarations name d hget

theorem declare (h : Spaced source stmts declarations imports) {d : Declaration}
    (hlaid : d.Laid source) (hd : IsStatement stmts d.statement)
    (hdeclarations : ∀ name d', declarations.get? name = some d' →
      d'.statement.Clear source d.statement)
    (himports : ∀ j ∈ imports, j.span.Clear source d.statement) :
    Spaced source stmts (declarations.put d.name d) imports := by
  -- what is found now is the new declaration, or was found before
  have hget : ∀ {name d'}, (declarations.put d.name d).get? name = some d' →
      (name = d.name ∧ d' = d) ∨ name ≠ d.name ∧ declarations.get? name = some d' := by
    intro name d' hget
    rw [Table.get?_put] at hget
    split at hget
    · next hname => exact Or.inl ⟨hname.symm, (Option.some.inj hget).symm⟩
    · next hname => exact Or.inr ⟨fun h => hname h.symm, hget⟩
  constructor
  · intro name d' h'
    rcases hget h' with ⟨-, rfl⟩ | ⟨-, h'⟩
    · exact hlaid
    · exact h.laid name d' h'
  · intro name d' h'
    rcases hget h' with ⟨-, rfl⟩ | ⟨-, h'⟩
    · exact hd
    · exact h.declaration name d' h'
  · exact h.import_
  · intro name name' a b ha hb hne
    rcases hget ha with ⟨hname, rfl⟩ | ⟨-, ha'⟩
    · rcases hget hb with ⟨hname', -⟩ | ⟨-, hb'⟩
      · exact absurd (hname.trans hname'.symm) hne
      · exact (hdeclarations name' b hb').symm
    · rcases hget hb with ⟨-, rfl⟩ | ⟨-, hb'⟩
      · exact hdeclarations name a ha'
      · exact h.apart name name' a b ha' hb' hne
  · exact h.importsApart
  · intro name d' h' i hi
    rcases hget h' with ⟨-, rfl⟩ | ⟨-, h'⟩
    · exact (himports i hi).symm
    · exact h.between name d' h' i hi

/-- **A statement behind those that were visited** keeps apart what is listed. -/
theorem gives {stmt : Node} (h : Spaced source done o.declarations o.importList)
    (hsource : o.source = source)
    (hbehind : ∀ before ∈ done, (before.span.widened source).Before stmt.span)
    (hgives : Gives stmt o o') :
    Spaced source (done ++ [stmt]) o'.declarations o'.importList := by
  have hold : Spaced source (done ++ [stmt]) o.declarations o.importList :=
    h.mono fun _ hmem => List.mem_append_left _ hmem
  have hnew : ∀ {a : Span}, a = stmt.span → Request.expressions stmt = [] →
      IsStatement (done ++ [stmt]) a :=
    fun ha hsilent => ⟨stmt, List.mem_append_right _ (List.mem_singleton_self _), ha, hsilent⟩
  have hclear : ∀ {a : Span}, IsStatement done a → ∀ {b : Span}, b = stmt.span →
      a.Clear source b := by
    rintro a ⟨before, hbefore, rfl, -⟩ b rfl
    exact Or.inl (hbehind before hbefore)
  cases hgives with
  | nothing hd hi =>
    rw [hd, hi]
    exact hold
  | import_ i hspan hsilent hd hi =>
    rw [hd, hi]
    exact hold.addImport (hnew hspan hsilent)
      (fun name d hget => hclear (h.declaration name d hget) hspan)
      fun j hj => hclear (h.import_ j hj) hspan
  | declaration d hlaid hspan hsilent hd hi =>
    rw [hd, hi]
    exact hold.declare (hsource ▸ hlaid) (hnew hspan hsilent)
      (fun name d' hget => hclear (h.declaration name d' hget) hspan)
      fun j hj => hclear (h.import_ j hj) hspan

theorem visitAll (hdone : Spaced source done o.declarations o.importList)
    (hsource : o.source = source) (hstmts : ∀ stmt ∈ stmts, stmt.WellFormed source)
    (hbehind : (done ++ stmts).Pairwise fun a b => (a.span.widened source).Before b.span)
    (h : Outline.visitAll strict o stmts = .ok (o', events)) :
    Spaced source (done ++ stmts) o'.declarations o'.importList := by
  induction stmts generalizing done o events with
  | nil =>
    obtain ⟨rfl, -⟩ := Prod.mk.inj (Except.ok.inj h)
    rwa [List.append_nil]
  | cons stmt rest ih =>
    obtain ⟨o₁, first, name, more, hvisit, hmore, -⟩ := exists_of_visitAll_cons h
    have hgives := gives_visit (hsource ▸ hstmts stmt List.mem_cons_self) hvisit
    have hspaced := hdone.gives hsource (fun before hbefore =>
      (List.pairwise_append.mp hbehind).2.2 before hbefore stmt List.mem_cons_self) hgives
    have hsource₁ : o₁.source = source := (grows_visit stmt hvisit).source.trans hsource
    rw [List.append_cons] at hbehind ⊢
    exact ih hspaced hsource₁ (fun s hs => hstmts s (List.mem_cons_of_mem _ hs)) hbehind hmore

end Spaced

/-- The statements of a script, even if the line breaks behind them go with them. -/
theorem pairwise_widened {tree : Node} (htree : tree.IsScript source) :
    tree.namedChildren.Pairwise fun a b => (a.span.widened source).Before b.span := by
  have hnodes := htree.wellFormed.nodesIn.sublist (List.filter_sublist (p := (·.kind.named)))
  refine (List.pairwise_map.mp hnodes.row.inOrder).imp_of_mem fun {a b} ha hb hbefore => ?_
  exact (hnodes.wellFormed a ha).cuts.widened_before (htree.starts b hb) hbefore

/-- **What a scan lists** are statements of their own, if the tree is that of a script. -/
theorem spaced_ofTree {path : String} {tree : Node} (htree : tree.IsScript source)
    (h : ofTree strict path source tree = .ok (o, events)) :
    Spaced source tree.namedChildren o.declarations o.importList := by
  have hempty : Spaced source [] ([] : Table String Declaration) [] := spaced_nil source
  have hbehind : ([] ++ tree.namedChildren : List Node).Pairwise fun a b =>
      (a.span.widened source).Before b.span := pairwise_widened htree
  rw [← List.nil_append tree.namedChildren]
  exact Spaced.visitAll hempty rfl
    (fun _ hstmt => (htree.wellFormed.namedChild hstmt).wellFormed) hbehind h

end Outline

end TypeGraft
