/-!
# What is removed beside what has to be

`TypeGraft.Cleaning` says how much is tidied up where declarations leave a script.
-/

namespace TypeGraft

/-- What is removed beside what has to be. -/
structure Cleaning where
  /-- Whether the line break behind a statement goes with it. -/
  lineBreaks : Bool
  /-- Whether interfaces that were only merged into others go. -/
  interfaces : Bool
deriving DecidableEq, Repr

/-- Nothing is removed but what has to be. -/
def Cleaning.none : Cleaning := ⟨false, false⟩

end TypeGraft
