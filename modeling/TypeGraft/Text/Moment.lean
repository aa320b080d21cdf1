/-!
# Moments

`TypeGraft.momentText` writes a moment, given in seconds since the start of 1970, as date and
time of the universal day.

**The calendar.** Years are counted from the first of March, so that a leap day ends its year;
the rest follows from the 146097 days of four centuries.
-/

namespace TypeGraft

/-- A number in two digits at least. -/
def twoDigits (n : Nat) : String := if n < 10 then s!"0{n}" else s!"{n}"

/-- The year, the month and the day of a day that is counted from the first of March of the year
zero. -/
def dateOf (day : Nat) : Nat × Nat × Nat :=
  let era := day / 146097
  let inEra := day % 146097
  let year := (inEra - inEra / 1460 + inEra / 36524 - inEra / 146096) / 365
  let inYear := inEra - (365 * year + year / 4 - year / 100)
  let month := (5 * inYear + 2) / 153
  let inMonth := inYear - (153 * month + 2) / 5
  if month < 10 then (era * 400 + year, month + 3, inMonth + 1)
  else (era * 400 + year + 1, month - 9, inMonth + 1)

/-- A moment as text, by the seconds since the start of 1970. -/
def momentText (seconds : Nat) : String :=
  let (year, month, day) := dateOf (seconds / 86400 + 719468)
  let time := seconds % 86400
  s!"{year}-{twoDigits month}-{twoDigits day}T" ++
    s!"{twoDigits (time / 3600)}:{twoDigits (time / 60 % 60)}:{twoDigits (time % 60)}Z"

end TypeGraft
