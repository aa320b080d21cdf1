import TypeGraft.Script

/-!
# Names that are declared twice

A strict scan of a file stops where the file declares a name twice, and a lenient one warns and goes
on. Up to there the two come to the same (`TypeGraft.Script.stricter_outline`).
-/

namespace TypeGraft

open Syntax

/-- A fault at a name that a file declares twice. -/
def Fault.IsRedeclaration (fault : Fault) : Prop :=
  ∃ path name first second, fault = .redeclared path name first second

/-- **A strict computation beside a lenient one**: the two come to the same, or the strict one stops
at a name that a file declares twice. -/
def Stricter {α : Type} (strict lenient : Except Fault α) : Prop :=
  strict = lenient ∨ ∃ fault, strict = .error fault ∧ fault.IsRedeclaration

namespace Stricter

variable {α β : Type} {strict lenient : Except Fault α}

theorem refl (result : Except Fault α) : Stricter result result := Or.inl rfl

theorem map (h : Stricter strict lenient) (f : α → β) :
    Stricter (strict.map f) (lenient.map f) := by
  rcases h with rfl | ⟨fault, rfl, hfault⟩
  · exact refl _
  · exact Or.inr ⟨fault, rfl, hfault⟩

end Stricter

namespace Outline

variable {o : Outline}

theorem stricter_declare (d : Declaration) (o : Outline) :
    Stricter (declare true d o) (declare false d o) := by
  unfold declare
  cases o.declarations.get? d.name with
  | none => exact .refl _
  | some first => exact Or.inr ⟨_, rfl, _, _, _, _, rfl⟩

mutual

theorem stricter_visit {statement : Node} {o : Outline} :
    (node : Node) → Stricter (visit true statement o node) (visit false statement o node)
  | .mk kind field span children => by
    unfold visit
    split
    · exact .refl _
    · exact stricter_visitExport children
    · exact stricter_visitAmbient children
    · dsimp only
      split
      · exact .refl _
      · exact (stricter_declare _ o).map _

theorem stricter_visitExport {node : Node} {o : Outline} :
    (children : List Node) →
      Stricter (visitExport true node o children) (visitExport false node o children)
  | [] => by
    unfold visitExport
    exact .refl _
  | child :: rest => by
    unfold visitExport
    split
    · exact (stricter_visit child).map _
    · exact stricter_visitExport rest

theorem stricter_visitAmbient {statement : Node} {o : Outline} :
    (children : List Node) →
      Stricter (visitAmbient true statement o children) (visitAmbient false statement o children)
  | [] => by
    unfold visitAmbient
    exact .refl _
  | child :: rest => by
    unfold visitAmbient
    split
    · rcases stricter_visit child with heq | ⟨fault, hfault, hre⟩
      · rw [heq]
        split
        · exact .refl _
        · exact .refl _
        · exact (stricter_visitAmbient rest).map _
      · rw [hfault]
        exact Or.inr ⟨fault, rfl, hre⟩
    · exact stricter_visitAmbient rest

end

theorem stricter_visitAll (o : Outline) (nodes : List Node) :
    Stricter (visitAll true o nodes) (visitAll false o nodes) := by
  induction nodes generalizing o with
  | nil => exact .refl _
  | cons node rest ih =>
    unfold visitAll
    rcases stricter_visit node with heq | ⟨fault, hfault, hre⟩
    · rw [heq]
      split
      · exact .refl _
      · exact (ih _).map _
    · rw [hfault]
      exact Or.inr ⟨fault, rfl, hre⟩

/-- **A strict scan** comes to what a lenient one comes to, or stops at a name that is declared
twice. -/
theorem stricter_ofTree (path : String) (source : Bytes) (tree : Node) :
    Stricter (ofTree true path source tree) (ofTree false path source tree) :=
  stricter_visitAll _ _

end Outline

/-- **A file that is scanned strictly** has the outline that it has otherwise, if it has one. -/
theorem Script.stricter_outline (path : String) (source : Bytes) :
    Stricter (outline true path source) (outline false path source) := by
  unfold outline
  cases tree ((dialect? path).getD .plain) path source with
  | error fault => exact .refl _
  | ok node => exact Outline.stricter_ofTree path source node

end TypeGraft
