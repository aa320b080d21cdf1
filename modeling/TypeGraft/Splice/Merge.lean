import TypeGraft.Harvest.Orders

/-!
# Merging bases

An interface of which some bases have members takes their members in.
`TypeGraft.Harvest.ancestors` lists all bases of an interface, direct or not, each once and after
its own bases; `TypeGraft.Harvest.inheritedBody` puts the members of all of them right behind the
opening brace.
-/

namespace TypeGraft.Harvest

/-- The bases of an interface that have members, in the order in which it names them. -/
def parentsOf (s : Harvest) (key : Key) : List Key :=
  (s.inherits.successors key).mergeSort fun a b =>
    (s.parentOrder.get? (key, a)).getD 0 ≤ (s.parentOrder.get? (key, b)).getD 0

/-- A walk over bases so far: those met, and those listed. -/
structure AncestorWalk where
  met : List Key
  listed : List Key

/-- Walk over the bases of an interface, at most `depth` levels deep. -/
def ancestorsFrom (s : Harvest) : (depth : Nat) → AncestorWalk → Key → AncestorWalk
  | 0, walk, _ => walk
  | depth + 1, walk, key =>
    (s.parentsOf key).foldl (fun walk base =>
      if base ∈ walk.met then walk
      else
        let walk := ancestorsFrom s depth { walk with met := base :: walk.met } base
        { walk with listed := walk.listed ++ [base] }) walk

/-- All bases of an interface, direct or not, a base after its own bases. -/
def ancestors (s : Harvest) (key : Key) : List Key :=
  (s.ancestorsFrom (s.inherits.nodes.length + 1) ⟨[key], []⟩ key).listed

/-- The body of a declaration with its slots filled. -/
def filledBody (e : Graft) : Except Failure Bytes :=
  Replacement.applyAll e.declaration.content e.declaration.body e.replacementsInBody

/-- The bodies of all declarations with their slots filled. -/
def filledBodies (s : Harvest) : Except Failure (Table Key Bytes) :=
  s.grafts.mapM fun (key, e) => (filledBody e).map fun body => (key, body)

/-- Put a text behind the first opening brace of a body, or at its front if there is none. -/
def insertMembers (members body : Bytes) : Bytes :=
  let opening : UInt8 := 0x7b
  if opening ∈ body then
    body.takeWhile (· != opening) ++ [opening] ++ members ++
      (body.dropWhile (· != opening)).drop 1
  else members ++ body

/-- The body of an interface with the members of all its bases. -/
def inheritedBody (s : Harvest) (own : Table Key Bytes) (key : Key) : Bytes :=
  let body := (own.get? key).getD []
  match s.ancestors key with
  | [] => body
  | bases => insertMembers (bases.flatMap fun base => memberText ((own.get? base).getD [])) body

/-- Add names to a list, those that it does not have yet. -/
def addNames (names added : List String) : List String :=
  added.foldl (fun names n => if n ∈ names then names else names ++ [n]) names

/-- Let an interface depend on all that its bases depend on. -/
def inheritDependencies (s : Harvest) (key : Key) : Harvest :=
  (s.ancestors key).foldl (fun s base =>
    let inherited := ((s.graft? base).map (·.dependencies)).getD []
    s.modifyGraft key fun e => { e with dependencies := addNames e.dependencies inherited }) s

/-- The bodies of all declarations after merging, and the harvest with the dependencies that
interfaces inherit. -/
def absorbParents (s : Harvest) (orders : Orders) (own : Table Key Bytes) :
    Harvest × Table Key Bytes :=
  let bodies := own.map fun (key, body) =>
    (key, if key ∈ orders.absorbOrder then s.inheritedBody own key else body)
  (orders.absorbOrder.foldl inheritDependencies s, bodies)

end TypeGraft.Harvest
