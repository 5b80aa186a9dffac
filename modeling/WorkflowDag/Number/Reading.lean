import WorkflowDag.Number.Basic
import WorkflowDag.Text.Blank
import WorkflowDag.Text.Cut

/-!
# Reading numbers

A number is written in decimal with an optional sign, point and exponent, in base sixteen, eight or
two behind `0x`, `0o` or `0b`, or as `Infinity`.  White space around it is ignored, and no text at
all means zero.
-/

namespace WorkflowDag
namespace Number

/-- Value of a digit below sixteen. -/
def digitValue? (c : Char) : Option Nat :=
  if '0' ≤ c ∧ c ≤ '9' then some (c.toNat - 48)
  else if 'a' ≤ c ∧ c ≤ 'f' then some (c.toNat - 87)
  else if 'A' ≤ c ∧ c ≤ 'F' then some (c.toNat - 55)
  else none

/-- A digit of the given base. -/
def isDigitOf (base : Nat) (c : Char) : Bool :=
  match digitValue? c with
  | some v => decide (v < base)
  | none => false

/-- Value of a run of digits. -/
def digitsValue (base : Nat) (cs : List Char) : Nat :=
  cs.foldl (fun acc c => acc * base + (digitValue? c).getD 0) 0

/-- A text of at least one digit, and nothing else, read in the given base. -/
def wholeOf? (base : Nat) (cs : List Char) : Option Number :=
  if cs ≠ [] ∧ cs.all (isDigitOf base) then some (ofNat (digitsValue base cs)) else none

/-- A decimal number split into its parts. -/
structure DecimalParts where
  whole : List Char
  fraction : List Char
  exponent : Int

/-- The number that decimal parts denote. -/
def DecimalParts.value (negative : Bool) (p : DecimalParts) : Number :=
  ofDecimal negative (digitsValue 10 (p.whole ++ p.fraction)) (p.exponent - p.fraction.length)

/-- Reads an exponent: a sign and digits up to the end of the text. -/
def exponent? (cs : List Char) : Option Int :=
  let (negative, digits) : Bool × List Char :=
    match cs with
    | '-' :: rest => (true, rest)
    | '+' :: rest => (false, rest)
    | rest => (false, rest)
  if digits ≠ [] ∧ digits.all (isDigitOf 10) then
    some (if negative then -(digitsValue 10 digits : Int) else digitsValue 10 digits)
  else none

/-- Reads unsigned decimal text up to its end. -/
def decimalParts? (cs : List Char) : Option DecimalParts :=
  let whole := cs.takeWhile (isDigitOf 10)
  let (fraction, rest) : List Char × List Char :=
    match cs.dropWhile (isDigitOf 10) with
    | '.' :: tail => (tail.takeWhile (isDigitOf 10), tail.dropWhile (isDigitOf 10))
    | tail => ([], tail)
  if whole = [] ∧ fraction = [] then none
  else
    match rest with
    | [] => some ⟨whole, fraction, 0⟩
    | e :: tail =>
      if e = 'e' ∨ e = 'E' then (exponent? tail).map fun exponent => ⟨whole, fraction, exponent⟩
      else none

/-- Reads a number without its sign. -/
def unsigned? (negative : Bool) (cs : List Char) : Option Number :=
  if cs = "Infinity".toList then some (infinite negative)
  else (decimalParts? cs).map (DecimalParts.value negative)

/-- The number that a text denotes. -/
def read? (s : String) : Option Number :=
  match Text.trimUnits s.toList with
  | [] => some zero
  | '0' :: mark :: digits =>
    if mark = 'x' ∨ mark = 'X' then wholeOf? 16 digits
    else if mark = 'o' ∨ mark = 'O' then wholeOf? 8 digits
    else if mark = 'b' ∨ mark = 'B' then wholeOf? 2 digits
    else unsigned? false ('0' :: mark :: digits)
  | '+' :: rest => unsigned? false rest
  | '-' :: rest => unsigned? true rest
  | cs => unsigned? false cs

end Number
end WorkflowDag
