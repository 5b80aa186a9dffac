/-!
# Numbers with 53 binary digits

Day counts and configuration numbers have 53 binary digits of precision and a binary exponent
between -1074 and 971.  `ofRatio` is the nearest such number to a quotient, a tie going to the even
neighbour; what is too large becomes infinite.
-/

namespace WorkflowDag

/-- A signed number `mantissa * 2 ^ exponent`, or an infinity. -/
inductive Number where
  | finite (negative : Bool) (mantissa : Nat) (exponent : Int)
  | infinite (negative : Bool)
deriving DecidableEq, Repr

namespace Number

/-- The least exponent. -/
def minExponent : Int := -1074

/-- The greatest exponent. -/
def maxExponent : Int := 971

/-- The least mantissa with 53 binary digits. -/
def fullMantissa : Nat := Nat.pow 2 52

/-- Quotient rounded to the nearest natural number, a tie to the even one. -/
def roundDiv (num den : Nat) : Nat :=
  let q := num / den
  let r := num % den
  if den < 2 * r then q + 1
  else if 2 * r = den then q + q % 2
  else q

/-- `num / den` rounded to a whole number of `2 ^ exponent`. -/
def scaled (num den : Nat) (exponent : Int) : Nat :=
  if 0 ≤ exponent then roundDiv num (den * Nat.pow 2 exponent.toNat)
  else roundDiv (num * Nat.pow 2 (-exponent).toNat) den

/-- The exponent at which `num / den` has 53 binary digits before rounding. -/
def fittingExponent (num den : Nat) : Int :=
  let guess : Int := (num.log2 : Int) - (den.log2 : Int) - 52
  let below : Bool :=
    if 0 ≤ guess then decide (num < den * Nat.pow 2 guess.toNat * fullMantissa)
    else decide (num * Nat.pow 2 (-guess).toNat < den * fullMantissa)
  max minExponent (if below then guess - 1 else guess)

/-- The number nearest to `num / den`. -/
def ofRatio (negative : Bool) (num den : Nat) : Number :=
  if num = 0 then finite negative 0 minExponent
  else
    let exponent := fittingExponent num den
    let mantissa := scaled num den exponent
    let (m, e) :=
      if mantissa = 2 * fullMantissa then (fullMantissa, exponent + 1) else (mantissa, exponent)
    if maxExponent < e then infinite negative else finite negative m e

/-- The number nearest to `digits * 10 ^ power`.  Powers far outside the range of numbers are
decided without computing them. -/
def ofDecimal (negative : Bool) (digits : Nat) (power : Int) : Number :=
  if digits = 0 then finite negative 0 minExponent
  else
    let size : Int := (Nat.toDigits 10 digits).length + power
    if 400 < size then infinite negative
    else if size < -400 then finite negative 0 minExponent
    else if 0 ≤ power then ofRatio negative (digits * Nat.pow 10 power.toNat) 1
    else ofRatio negative digits (Nat.pow 10 (-power).toNat)

/-- The number nearest to a natural number. -/
def ofNat (n : Nat) : Number :=
  ofRatio false n 1

/-- The number is a whole number. -/
def isInteger : Number → Bool
  | finite _ mantissa exponent =>
    decide (0 ≤ exponent) || mantissa % Nat.pow 2 (-exponent).toNat == 0
  | infinite _ => false

/-- The number lies below zero. -/
def isNegative : Number → Bool
  | finite negative mantissa _ => negative && mantissa != 0
  | infinite negative => negative

/-- The number lies above zero. -/
def isPositive : Number → Bool
  | finite negative mantissa _ => !negative && mantissa != 0
  | infinite negative => !negative

/-- Zero. -/
def zero : Number := finite false 0 minExponent

end Number
end WorkflowDag
