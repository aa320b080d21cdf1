import TypeGraft.Text.Lowercase

/-!
# Characters that are alike but for case

`TypeGraft.Text.alike` lists the characters that are the same as a given one where case does
not matter: those with the same lower case form, and those whose lower case forms have one
upper case form in common.
-/

namespace TypeGraft.Text

/-- The lower case letters that have one upper case form in common, where there are several. -/
def sharedUpper : List (List Nat) :=
  [[0x69, 0x131], [0x73, 0x17f], [0xb5, 0x3bc], [0x345, 0x3b9, 0x1fbe], [0x390, 0x1fd3],
   [0x3b0, 0x1fe3], [0x3b2, 0x3d0], [0x3b5, 0x3f5], [0x3b8, 0x3d1], [0x3ba, 0x3f0], [0x3c0, 0x3d6],
   [0x3c1, 0x3f1], [0x3c2, 0x3c3], [0x3c6, 0x3d5], [0x432, 0x1c80], [0x434, 0x1c81],
   [0x43e, 0x1c82], [0x441, 0x1c83], [0x442, 0x1c84, 0x1c85], [0x44a, 0x1c86], [0x463, 0x1c87],
   [0x1c88, 0xa64b], [0x1e61, 0x1e9b], [0xfb05, 0xfb06]]

/-- The code point of the lower case form of a character by itself. The capital I with a dot
above loses its dot. -/
def simpleLower (c : Char) : Nat := if c = dottedI then 0x69 else lowerPoint caseRuns c.toNat

/-- The code points that have a given lower case form and are not that form. -/
def capitalsOf (point : Nat) : List Nat :=
  (caseRuns.filterMap fun run =>
    let capital := ((point : Int) - run.shift).toNat
    if run.first ≤ capital && capital ≤ run.last && (capital - run.first) % run.step == 0 then
      some capital
    else none) ++ (if point = 0x69 then [dottedI.toNat] else [])

/-- The characters that are alike but for case. -/
def alike (c : Char) : List Char :=
  let lower := simpleLower c
  let lowers := (sharedUpper.find? (·.contains lower)).getD [lower]
  (lowers.flatMap fun point => point :: capitalsOf point).map Char.ofNat

end TypeGraft.Text
