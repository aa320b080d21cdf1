/-!
# Numbers of double precision

The binary floating point numbers of 64 bits as exact values
(`TypeGraft.Binary64`), with their reading from decimal digits and their shortest decimal
text.

* `TypeGraft.Binary64.ofDecimal`: the number nearest to a decimal, of two equally near ones
  the one with an even mantissa.
* `TypeGraft.Binary64.shortest`: the fewest decimal digits that read back as the number, and
  of those the nearest to it.
* `TypeGraft.Binary64.text`: its written form. Numbers from `1e-4` up to `1e16` are written
  with a point, and with `.0` if they are whole; others with an exponent of at least two
  digits.
-/

namespace TypeGraft

/-- A number of double precision. A finite one is `mantissa * 2 ^ exponent` with a mantissa
below `2 ^ 53` and an exponent from -1074 on. -/
inductive Binary64 where
  | nan
  | infinite (negative : Bool)
  | finite (negative : Bool) (mantissa : Nat) (exponent : Int)
deriving DecidableEq, Repr

namespace Binary64

/-- Whether the number is zero. -/
def isZero : Binary64 → Bool
  | finite _ mantissa _ => mantissa == 0
  | _ => false

/-- The quotient of two natural numbers, rounded to the nearest one; a half goes to the even
neighbour. -/
def roundedQuotient (num den : Nat) : Nat :=
  let q := num / den
  let r := num % den
  if 2 * r < den then q
  else if den < 2 * r then q + 1
  else if q % 2 == 0 then q else q + 1

/-- The fraction `num / den` divided by a power of two, as a fraction. -/
def scaleDown (num den : Nat) (exponent : Int) : Nat × Nat :=
  if 0 ≤ exponent then (num, den * Nat.pow 2 exponent.toNat)
  else (num * Nat.pow 2 (-exponent).toNat, den)

/-- The number nearest to the positive fraction `num / den`. -/
def ofFraction (negative : Bool) (num den : Nat) : Binary64 :=
  let guess : Int := (num.log2 : Int) - den.log2 - 52
  let exponent :=
    let (n, d) := scaleDown num den guess
    if n < d * Nat.pow 2 52 then guess - 1 else guess
  let exponent := if exponent < -1074 then -1074 else exponent
  let (n, d) := scaleDown num den exponent
  let mantissa := roundedQuotient n d
  let (mantissa, exponent) :=
    if mantissa == Nat.pow 2 53 then (Nat.pow 2 52, exponent + 1) else (mantissa, exponent)
  if 971 < exponent then infinite negative else finite negative mantissa exponent

/-- The number of decimal digits of a natural number. -/
def digitCount (n : Nat) : Nat := (Nat.toDigits 10 n).length

/-- The number nearest to `digits * 10 ^ exponent`. Beyond `1e310` and below `1e-330` no
arithmetic is needed. -/
def ofDecimal (negative : Bool) (digits : Nat) (exponent : Int) : Binary64 :=
  if digits == 0 then finite negative 0 (-1074)
  else
    let magnitude := exponent + digitCount digits
    if 310 < magnitude then infinite negative
    else if magnitude < -330 then finite negative 0 (-1074)
    else if 0 ≤ exponent then ofFraction negative (digits * Nat.pow 10 exponent.toNat) 1
    else ofFraction negative digits (Nat.pow 10 (-exponent).toNat)

/-- The value of `mantissa * 2 ^ exponent / 10 ^ place`, as a fraction. -/
def atPlace (mantissa : Nat) (exponent place : Int) : Nat × Nat :=
  let (num, den) := scaleDown mantissa 1 (-exponent)
  if 0 ≤ place then (num, den * Nat.pow 10 place.toNat)
  else (num * Nat.pow 10 (-place).toNat, den)

/-- The neighbours of the number on the grid of multiples of `10 ^ place` that read back as
the number, the nearer one if both do. -/
def onGrid? (mantissa : Nat) (exponent place : Int) : Option Nat :=
  let (num, den) := atPlace mantissa exponent place
  let low := num / den
  let readsBack (digits : Nat) : Bool :=
    digits != 0 && ofDecimal false digits place == finite false mantissa exponent
  match readsBack low, readsBack (low + 1) with
  | true, true =>
    let r := num % den
    if 2 * r < den || (2 * r == den && low % 2 == 0) then some low else some (low + 1)
  | true, false => some low
  | false, true => some (low + 1)
  | false, false => none

/-- The first place from `place` downwards, among `count`, at which the grid has a point that
reads back: the digits there, and the place. -/
def shortestFrom (mantissa : Nat) (exponent : Int) : (count : Nat) → (place : Int) → Nat × Int
  | 0, place => (0, place)
  | count + 1, place =>
    match onGrid? mantissa exponent place with
    | some digits => (digits, place)
    | none => shortestFrom mantissa exponent count (place - 1)

/-- The fewest digits that read back as a positive number, with the place of the last one. -/
def shortest (mantissa : Nat) (exponent : Int) : Nat × Int :=
  let (num, den) := atPlace mantissa exponent 0
  let top : Int :=
    if den ≤ num then digitCount (num / den) else -(digitCount (den / num) : Int) + 1
  shortestFrom mantissa exponent 20 top

/-- The written form of `digits * 10 ^ place`. -/
def decimalText (digits : Nat) (place : Int) : String :=
  let all := Nat.toDigits 10 digits
  let kept := (all.reverse.dropWhile (· == '0')).reverse
  let kept := if kept.isEmpty then ['0'] else kept
  let place := place + (all.length - kept.length : Nat)
  let point : Int := place + kept.length
  let chars :=
    if -4 < point ∧ point ≤ 16 then
      if point ≤ 0 then ['0', '.'] ++ List.replicate (-point).toNat '0' ++ kept
      else if kept.length ≤ point.toNat then
        kept ++ List.replicate (point.toNat - kept.length) '0' ++ ['.', '0']
      else kept.take point.toNat ++ ['.'] ++ kept.drop point.toNat
    else
      let power := point - 1
      let size := Nat.toDigits 10 power.natAbs
      let mantissa := match kept with
        | [d] => [d]
        | d :: rest => d :: '.' :: rest
        | [] => []
      mantissa ++ ['e', if power < 0 then '-' else '+'] ++
        List.replicate (2 - size.length) '0' ++ size
  String.ofList chars

/-- The written form of a number. -/
def text : Binary64 → String
  | nan => "NaN"
  | infinite negative => if negative then "-Infinity" else "Infinity"
  | finite negative mantissa exponent =>
    let sign := if negative then "-" else ""
    if mantissa == 0 then sign ++ "0.0"
    else
      let (digits, place) := shortest mantissa exponent
      sign ++ decimalText digits place

end Binary64

end TypeGraft
