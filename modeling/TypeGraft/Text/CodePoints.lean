/-!
# Sets of characters

A character class of the Unicode standard is kept as the list of its ranges of code points
(`TypeGraft.CodePoints`), in ascending order, both ends included.
-/

namespace TypeGraft

/-- A set of characters, as ranges of code points in ascending order. -/
abbrev CodePoints := List (Nat × Nat)

namespace CodePoints

/-- Whether a code point lies in one of the ranges. The ranges ascend, so the search ends at
the first one that ends at or after the code point. -/
def has : CodePoints → (point : Nat) → Bool
  | [], _ => false
  | (first, last) :: rest, point =>
    if point ≤ last then first ≤ point else has rest point

/-- Whether a character lies in one of the ranges. -/
def contains (set : CodePoints) (c : Char) : Bool := set.has c.toNat

end CodePoints

end TypeGraft
