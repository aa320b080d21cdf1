import TypeGraft.Splice.Edits

/-!
# Splicing

`TypeGraft.Harvest.splice` turns what a search has found into the block and the edits of the
entry script.
-/

namespace TypeGraft

/-- What a search comes to. -/
structure Splice where
  /-- The declarations to put at the front of the script. -/
  block : String
  /-- What to change in the script. -/
  edits : List Replacement
  /-- The names of the declarations in the block. -/
  emitted : List String
deriving Repr

/-- Write the block and list the edits. -/
def Harvest.splice (s : Harvest) (orders : Orders) (clean : Cleaning) :
    Except Failure (Harvest × Splice) :=
  match s.filledBodies with
  | .error failure => .error failure
  | .ok own =>
    let (s, bodies) := s.absorbParents orders own
    let keys := s.blockKeys orders
    match s.block bodies keys with
    | .error failure => .error failure
    | .ok block =>
      let s := if keys.isEmpty then s else s.log [.inlined keys.length]
      .ok (s, ⟨block, s.edits orders clean, keys.map s.newNameOf⟩)

end TypeGraft
