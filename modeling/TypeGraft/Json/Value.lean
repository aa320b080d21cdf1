import TypeGraft.Number.Binary64

/-!
# JSON values

A `TypeGraft.Json` value keeps the order of its members, and keeps whole numbers apart from
those that were written with a point or an exponent.
-/

namespace TypeGraft

/-- A JSON value. -/
inductive Json where
  | null
  | bool (value : Bool)
  | integer (value : Int)
  | real (value : Binary64)
  | string (value : String)
  | array (items : List Json)
  | object (members : List (String × Json))

namespace Json

/-- The member of an object by its name. -/
def get? (json : Json) (name : String) : Option Json :=
  match json with
  | object members => (members.find? (·.1 == name)).map (·.2)
  | _ => none

/-- Add a member to the members of an object. A name that is there already keeps its place
and takes the new value. -/
def putMember (members : List (String × Json)) (name : String) (value : Json) :
    List (String × Json) :=
  if members.any (·.1 == name) then
    members.map fun m => if m.1 == name then (name, value) else m
  else members ++ [(name, value)]

/-- Whether a value counts as present: not null, false, zero or empty. -/
def isTruthy : Json → Bool
  | null => false
  | bool value => value
  | integer value => value != 0
  | real value => !value.isZero
  | string value => value != ""
  | array items => !items.isEmpty
  | object members => !members.isEmpty

end Json

end TypeGraft
