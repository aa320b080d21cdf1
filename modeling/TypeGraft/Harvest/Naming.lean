import TypeGraft.Harvest.Basic

/-!
# Names for declarations

`TypeGraft.Harvest.takeIn` takes a declaration in under a name of its own.

* An alias or an interface of the entry script keeps its name.
* What a request asks for takes the name in the request, if that is free.
* Any other declaration is named with the mark `_INLINE_` in front of its name, and with a
  number behind it where that name is taken. The number of an enumeration is never left out.
-/

namespace TypeGraft

/-- What stands in front of the names of declarations that were taken from elsewhere. -/
def inlineMark : String := "_INLINE_"

namespace Harvest

/-- A name with a number. -/
def numbered (stem : String) (n : Nat) : String := s!"{stem}_{n}"

/-- The least number from `n` on with which a name is free, among the next `steps`. -/
def freeNumber (used : List String) (stem : String) : (steps : Nat) → (n : Nat) → Nat
  | 0, n => n
  | steps + 1, n => if numbered stem n ∈ used then freeNumber used stem steps (n + 1) else n

/-- The name of a declaration with the mark in front, which is not put there twice. -/
def stem (name : String) : String :=
  if inlineMark.toList.isPrefixOf name.toList then name else inlineMark ++ name

/-- Choose a name for a declaration; `request` is the name in the request that asks for it. -/
def nameFor (s : Harvest) (d : Declaration) (request : Option String) : Harvest × String :=
  if s.isEntryFile d.file && !d.isEnumeration then (s, d.name)
  else
    match request.filter fun name => !d.isEnumeration && !(s.takenNames.contains name) with
    | some name => (s, name)
    | none =>
      let stem := stem d.name
      if !d.isEnumeration && !(s.takenNames.contains stem) then (s, stem)
      else
        let first := max ((s.nextNumbers.get? stem).getD 0) (if d.isEnumeration then 0 else 1)
        let n := freeNumber s.takenNames stem (s.takenNames.length + 1) first
        ({ s with nextNumbers := s.nextNumbers.put stem (n + 1) }, numbered stem n)

/-- Take a declaration in under a name. -/
def takeIn (s : Harvest) (d : Declaration) (request : Option String) : Harvest × String :=
  let (s, name) := s.nameFor d request
  ({ s with
      takenNames := if name ∈ s.takenNames then s.takenNames else s.takenNames ++ [name]
      grafts := s.grafts.put d.key ⟨d, name, [], []⟩
      dependencies := s.dependencies.addNode d.key }, name)

end Harvest

end TypeGraft
