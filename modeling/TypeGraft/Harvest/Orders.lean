import TypeGraft.Harvest.Basic
import TypeGraft.Digraph.Order
import TypeGraft.Digraph.Circles

/-!
# The orders of the declarations

Once all declarations are found, `TypeGraft.Harvest.orders` breaks the circles in which
interfaces extend each other, and then orders the interfaces for merging and the declarations
for the block. In both orders a declaration comes after what it depends on.
-/

namespace TypeGraft

/-- The orders in which interfaces are merged and declarations are written. -/
structure Orders where
  /-- What goes into the block, in its order, with the entry declarations it depends on. -/
  blockOrder : List Key
  /-- The interfaces that take part in merging. -/
  absorbOrder : List Key
  /-- The circles that were broken. -/
  circles : List (List Key)
deriving Repr

namespace Harvest

/-- The name that a declaration goes by. -/
def newNameOf (s : Harvest) (key : Key) : String :=
  ((s.graft? key).map (·.newName)).getD key.name

/-- Break all circles of interfaces that extend each other. -/
def cutCircles (s : Harvest) : Harvest × List (List Key) :=
  let circles := s.inherits.circles Key.le 1
  ({ s with inherits := s.inherits.cut circles }.log
    (circles.map fun c => Event.inheritanceCycle (List.map s.newNameOf c)), circles)

/-- What each declaration uses, with what it inherits. -/
def usesWithInherited (s : Harvest) : Digraph Key := s.dependencies.withInherited s.inherits

/-- Break the circles, and find the orders. -/
def orders (s : Harvest) : Harvest × Orders :=
  let (s, circles) := s.cutCircles
  let derived := s.inherits.nodes.filter fun v => 0 < s.inherits.outDegree v
  (s, { blockOrder := s.usesWithInherited.successorsFirst s.requestedKeys
        absorbOrder := s.inherits.successorsFirst derived
        circles })

end Harvest

end TypeGraft
