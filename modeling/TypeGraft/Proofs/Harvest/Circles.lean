import Mathlib.Data.List.Sort
import Mathlib.Data.String.Basic
import TypeGraft.Extraction
import TypeGraft.Proofs.Digraph.Circles

/-!
# The circles in order

A circle of interfaces lists its members in the order of their keys. This is a linear order
(`TypeGraft.Key.linear_le`), so it does not matter how the members are sorted, and the circles can
be computed with an insertion sort (`TypeGraft.Digraph.circles_eq`).
-/

namespace TypeGraft

namespace Key

variable {a b c : Key}

theorem le_iff : a.le b = true ↔ a.file < b.file ∨ (a.file = b.file ∧ a.name ≤ b.name) := by
  rw [le, Bool.or_eq_true, decide_eq_true_eq, Bool.and_eq_true, beq_iff_eq, Bool.not_eq_true',
    decide_eq_false_iff_not, not_lt]

theorem le_total (a b : Key) : a.le b = true ∨ b.le a = true := by
  rw [le_iff, le_iff]
  rcases lt_trichotomy a.file b.file with hlt | heq | hgt
  · exact Or.inl (Or.inl hlt)
  · exact (String.le_total a.name b.name).imp (fun h => Or.inr ⟨heq, h⟩) fun h =>
      Or.inr ⟨heq.symm, h⟩
  · exact Or.inr (Or.inl hgt)

theorem le_trans (hab : a.le b = true) (hbc : b.le c = true) : a.le c = true := by
  rw [le_iff] at hab hbc ⊢
  rcases hab with hab | ⟨hab, hab'⟩ <;> rcases hbc with hbc | ⟨hbc, hbc'⟩
  · exact Or.inl (hab.trans hbc)
  · exact Or.inl (hbc ▸ hab)
  · exact Or.inl (hab ▸ hbc)
  · exact Or.inr ⟨hab.trans hbc, hab'.trans hbc'⟩

theorem le_antisymm (hab : a.le b = true) (hba : b.le a = true) : a = b := by
  rw [le_iff] at hab hba
  rcases hab with hab | ⟨hab, hab'⟩ <;> rcases hba with hba | ⟨hba, hba'⟩
  · exact absurd hba hab.asymm
  · exact absurd hba.symm hab.ne
  · exact absurd hab.symm hba.ne
  · obtain ⟨file, name⟩ := a
    exact congrArg₂ Key.mk hab (String.le_antisymm hab' hba')

theorem linear_le : Digraph.Linear Key.le :=
  ⟨le_total, fun _ _ _ => le_trans, fun _ _ => le_antisymm⟩

end Key

namespace Digraph

/-- The circles of a graph, each sorted by insertion. -/
def insertedCircles (g : Digraph Key) : List (List Key) :=
  let found := g.components.filter fun c =>
    1 ≤ c.length && (1 < c.length || c.any fun v => g.hasEdge v v)
  (found.map (·.insertionSort fun a b => a.le b = true)).mergeSort fun a b =>
    b.length < a.length || (a.length == b.length && listLe Key.le a b)

/-- **The circles can be computed** with an insertion sort. -/
theorem circles_eq (g : Digraph Key) : g.circles Key.le 1 = g.insertedCircles := by
  have htotal : Std.Total fun a b : Key => a.le b = true := ⟨Key.linear_le.total⟩
  have htrans : IsTrans Key fun a b => a.le b = true := ⟨Key.linear_le.trans⟩
  have hantisymm : Std.Antisymm fun a b : Key => a.le b = true := ⟨Key.linear_le.antisymm⟩
  have hsort : ∀ c : List Key,
      c.mergeSort Key.le = c.insertionSort fun a b => a.le b = true := by
    intro c
    rw [← List.mergeSort_eq_insertionSort]
    simp only [Bool.decide_eq_true]
  rw [circles, insertedCircles]
  simp only [hsort]

end Digraph

namespace Harvest

/-- Break some circles, and find the orders. -/
def ordersWithout (s : Harvest) (circles : List (List Key)) : Harvest × Orders :=
  let s := { s with inherits := s.inherits.cut circles }.log
    (circles.map fun c => Event.inheritanceCycle (List.map s.newNameOf c))
  let derived := s.inherits.nodes.filter fun v => 0 < s.inherits.outDegree v
  (s, { blockOrder := s.usesWithInherited.successorsFirst s.requestedKeys
        absorbOrder := s.inherits.successorsFirst derived
        circles })

theorem orders_eq (s : Harvest) : s.orders = s.ordersWithout s.inherits.insertedCircles := by
  rw [← Digraph.circles_eq]
  rfl

/-- Look for requested types and splice what was found, where the circles are sorted by
insertion. -/
def searchAndSpliceInserted (world : World) (s : Harvest) (o : Outline)
    (requests : List RootRequest) (external : Bool) (clean : Cleaning) :
    Harvest × Except Failure (Orders × Splice) :=
  match s.search world o requests external with
  | (s, .error failure) => (s, .error failure)
  | (s, .ok ()) =>
    let (s, orders) := s.ordersWithout s.inherits.insertedCircles
    match s.splice orders clean with
    | .error failure => (s, .error failure)
    | .ok (s, splice) => (s, .ok (orders, splice))

theorem searchAndSplice_eq (world : World) (s : Harvest) (o : Outline)
    (requests : List RootRequest) (external : Bool) (clean : Cleaning) :
    s.searchAndSplice world o requests external clean =
      s.searchAndSpliceInserted world o requests external clean := by
  rw [searchAndSplice, searchAndSpliceInserted]
  obtain ⟨s', outcome⟩ := s.search world o requests external
  cases outcome with
  | error => rfl
  | ok =>
    have horders := s'.orders_eq
    dsimp only
    generalize s'.ordersWithout s'.inherits.insertedCircles = sorted at horders ⊢
    subst horders
    rfl

end Harvest

end TypeGraft
