import TypeGraft.Text.Utf8

/-!
# Byte ranges

A `TypeGraft.Span` is a half-open range of byte positions in one text. `Span.rebased?` counts
a span from the start of another one, which it can do only if the other one contains it.

Positions are integers: a span may be compared with, and moved against, slices that
begin after it.
-/

namespace TypeGraft

/-- The byte positions from `start` up to, but not including, `stop`. -/
structure Span where
  start : Int
  stop : Int
deriving DecidableEq, Repr, Inhabited

namespace Span

/-- The range of all bytes of a text. -/
def whole (bytes : Bytes) : Span := ⟨0, bytes.length⟩

/-- Whether `b` lies within `a`. -/
def contains (a b : Span) : Bool := a.start ≤ b.start && b.stop ≤ a.stop

/-- Whether `a` and `b` share a position. -/
def overlaps (a b : Span) : Bool := a.start < b.stop && b.start < a.stop

/-- The same range counted from the start of `base`, if `base` contains it. -/
def rebased? (a base : Span) : Option Span :=
  if base.contains a then some ⟨a.start - base.start, a.stop - base.start⟩ else none

/-- Spans in reading order: by start, then by end. -/
def le (a b : Span) : Bool := a.start < b.start || (a.start == b.start && a.stop ≤ b.stop)

/-- A position in a list of `length` elements: a negative one counts from the end,
and one outside of the list is moved to the nearer end. -/
def clamp (length : Nat) (position : Int) : Nat :=
  if position < 0 then (position + length).toNat else min position.toNat length

/-- The elements of a list that lie in a range, whose ends are positions as for
`Span.clamp`. -/
def slice {α : Type} (a : Span) (items : List α) : List α :=
  (items.take (clamp items.length a.stop)).drop (clamp items.length a.start)

/-- A pair of parentheses around the two ends. -/
def describe (a : Span) : String := s!"({a.start}, {a.stop})"

end Span

end TypeGraft
