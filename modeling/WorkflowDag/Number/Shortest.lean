import WorkflowDag.Number.Basic
import WorkflowDag.Text.Cut

/-!
# The shortest decimal text of a number

A number is written with the fewest decimal digits that round back to it; among those the nearest
decimal is taken, a tie going to the even one.  Whole numbers below `10 ^ 21` are written out,
fractions from `10 ^ -6` on with a point, and all others with an exponent.
-/

namespace WorkflowDag
namespace Number

/-- The decimals that round to a number: from `low / den` to `high / den`, the ends included when
`closed`.  The number itself is `mid / den`. -/
structure Interval where
  low : Nat
  mid : Nat
  high : Nat
  den : Nat
  closed : Bool

/-- The interval of decimals that round to `mantissa * 2 ^ exponent`. -/
def interval (mantissa : Nat) (exponent : Int) : Interval :=
  let gap := if mantissa = fullMantissa ∧ minExponent < exponent then 1 else 2
  let up := Nat.pow 2 (exponent - 2).toNat
  { low := (4 * mantissa - gap) * up
    mid := 4 * mantissa * up
    high := (4 * mantissa + 2) * up
    den := Nat.pow 2 (2 - exponent).toNat
    closed := mantissa % 2 == 0 }

/-- `count * 10 ^ power` lies in the interval. -/
def Interval.holds (i : Interval) (count : Nat) (power : Int) : Bool :=
  let value := count * Nat.pow 10 power.toNat * i.den
  let scale := Nat.pow 10 (-power).toNat
  if i.closed then decide (i.low * scale ≤ value) && decide (value ≤ i.high * scale)
  else decide (i.low * scale < value) && decide (value < i.high * scale)

/-- The grid point of step `10 ^ power` that stands for the interval: of the number's two neighbours
the nearer one inside. -/
def Interval.point? (i : Interval) (power : Int) : Option Nat :=
  let num := i.mid * Nat.pow 10 (-power).toNat
  let den := i.den * Nat.pow 10 power.toNat
  let below := num / den
  let nearUp : Bool :=
    decide (den < 2 * (num % den)) || (2 * (num % den) == den && below % 2 == 1)
  match i.holds below power && below != 0, i.holds (below + 1) power with
  | true, true => some (if nearUp then below + 1 else below)
  | true, false => some below
  | false, true => some (below + 1)
  | false, false => none

/-- The first point found when the grid is refined step by step. -/
def Interval.search (i : Interval) : Nat → Int → Nat × Int
  | 0, power => (i.mid / i.den, power)
  | steps + 1, power =>
    match i.point? power with
    | some count => (count, power)
    | none => i.search steps (power - 1)

/-- The number of places between the point and the first digit that is not zero, for a quotient
below one. -/
def leadingPlaces (num den : Nat) : Nat → Nat → Nat
  | 0, places => places
  | steps + 1, places =>
    if den ≤ num * Nat.pow 10 (places + 1) then places + 1
    else leadingPlaces num den steps (places + 1)

/-- Power of ten of the first digit. -/
def Interval.topPower (i : Interval) : Int :=
  if i.den ≤ i.mid then (Nat.toDigits 10 (i.mid / i.den)).length - 1
  else -(leadingPlaces i.mid i.den 400 0 : Int)

/-- Divides out factors of ten. -/
def stripZeros : Nat → Nat → Int → Nat × Int
  | 0, count, power => (count, power)
  | steps + 1, count, power =>
    if count % 10 = 0 then stripZeros steps (count / 10) (power + 1) else (count, power)

/-- The shortest digits and the power of ten of the last of them. -/
def shortest (mantissa : Nat) (exponent : Int) : Nat × Int :=
  let i := interval mantissa exponent
  let (count, power) := i.search 25 i.topPower
  stripZeros 25 count power

/-- Text of an exponent, with its sign. -/
def exponentText (e : Int) : String :=
  "e" ++ (if e < 0 then "-" else "+") ++ Text.decimal e.natAbs

/-- Text of `count * 10 ^ power`, where `count` does not end in zero. -/
def layout (count : Nat) (power : Int) : String :=
  let digits := Nat.toDigits 10 count
  let point : Int := digits.length + power
  if 0 ≤ power ∧ point ≤ 21 then String.ofList (digits ++ List.replicate power.toNat '0')
  else if 0 < point ∧ point ≤ 21 then
    String.ofList (digits.take point.toNat ++ '.' :: digits.drop point.toNat)
  else if -6 < point ∧ point ≤ 0 then
    String.ofList ('0' :: '.' :: List.replicate (-point).toNat '0' ++ digits)
  else
    String.ofList (digits.take 1 ++ (if digits.length = 1 then [] else '.' :: digits.drop 1)) ++
      exponentText (point - 1)

/-- Text of a number; zero has no sign. -/
def text : Number → String
  | finite negative mantissa exponent =>
    if mantissa = 0 then "0"
    else
      let (count, power) := shortest mantissa exponent
      (if negative then "-" else "") ++ layout count power
  | infinite negative => (if negative then "-" else "") ++ "Infinity"

end Number
end WorkflowDag
