/-!
# Text as a sequence of units

All texts of this library are measured, cut and ordered in 16-bit units.  A character beyond the
basic plane takes two units, its *halves*.  A `String` in *unit form* holds one unit per character:
a half with number `s` (`0xD800 ≤ s < 0xE000`) stands at the private character `0x100000 + s`, and
no other character beyond the basic plane occurs.

`split` brings ordinary text into unit form and `join` brings it back.  Cutting unit-form text may
leave a half alone; `join` shows such a half as the replacement character.
-/

namespace WorkflowDag
namespace Text

/-- Offset of the private characters that stand for halves. -/
def halfOffset : Nat := 0x100000

/-- The character that holds the unit with number `n` in unit-form text. -/
def ofUnit (n : Nat) : Char :=
  if 0xD800 ≤ n ∧ n < 0xE000 then Char.ofNat (halfOffset + n) else Char.ofNat n

/-- Number of the unit that a character of unit-form text holds. -/
def unit (c : Char) : Nat :=
  if halfOffset + 0xD800 ≤ c.toNat ∧ c.toNat < halfOffset + 0xE000 then c.toNat - halfOffset
  else c.toNat

/-- The unit is the first half of a character beyond the basic plane. -/
def isHighHalf (c : Char) : Bool :=
  decide (0xD800 ≤ unit c) && decide (unit c < 0xDC00)

/-- The unit is the second half of a character beyond the basic plane. -/
def isLowHalf (c : Char) : Bool :=
  decide (0xDC00 ≤ unit c) && decide (unit c < 0xE000)

/-- The units of one code point. -/
def unitsOf (n : Nat) : List Char :=
  if n < 0x10000 then [ofUnit n]
  else [ofUnit (0xD800 + (n - 0x10000) / 0x400), ofUnit (0xDC00 + (n - 0x10000) % 0x400)]

/-- Code point of the character whose halves are `high` and `low`. -/
def pairCode (high low : Char) : Nat :=
  0x10000 + (unit high - 0xD800) * 0x400 + (unit low - 0xDC00)

/-- The character shown for a half that stands alone. -/
def replacement : Char := Char.ofNat 0xFFFD

/-- A unit on its own, as a reader of the joined text sees it. -/
def joinAlone (c : Char) : Char :=
  if isHighHalf c || isLowHalf c then replacement else c

/-- Puts neighbouring halves together again. -/
def joinUnits : List Char → List Char
  | [] => []
  | [c] => [joinAlone c]
  | c :: d :: rest =>
    if isHighHalf c && isLowHalf d then Char.ofNat (pairCode c d) :: joinUnits rest
    else joinAlone c :: joinUnits (d :: rest)

/-- Unit form of an ordinary text. -/
def split (s : String) : String :=
  String.ofList (s.toList.flatMap fun c => unitsOf c.toNat)

/-- Ordinary text of a text in unit form. -/
def join (s : String) : String :=
  String.ofList (joinUnits s.toList)

/-- Lexicographic order of unit numbers. -/
def unitsBefore : List Char → List Char → Bool
  | _, [] => false
  | [], _ :: _ => true
  | a :: as, b :: bs =>
    if unit a < unit b then true else if unit b < unit a then false else unitsBefore as bs

/-- `a` comes strictly before `b` when texts are sorted by their units. -/
def before (a b : String) : Bool :=
  unitsBefore a.toList b.toList

/-- Puts `s` in front of the first entry that does not come before it. -/
def insertSorted (s : String) : List String → List String
  | [] => [s]
  | t :: rest => if before t s then t :: insertSorted s rest else s :: t :: rest

/-- The texts in ascending unit order. -/
def sorted : List String → List String
  | [] => []
  | s :: rest => insertSorted s (sorted rest)

end Text
end WorkflowDag
