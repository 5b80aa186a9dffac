import WorkflowDag.Text.Units
import WorkflowDag.Text.Cut

/-!
# Suggestions

Known words that are close to an unknown one.  The distance counts inserted, deleted and exchanged
units, and neighbours that have changed places.
-/

namespace WorkflowDag
namespace CommandLine

/-- The greatest distance of a suggestion. -/
def maxDistance : Nat := 3

/-- The next row of the table of distances, for the unit `b`.  `older` and `last` are the two rows
before, `before` the unit before `b`, and `done` what has been filled in, all in the order of the
word's units. -/
def nextRow (b : Char) (before : Option Char) (older last : List Nat) :
    List Char → Option Char → List Nat → Nat → List Nat
  | [], _, _, left => [left]
  | a :: rest, previous, behind, left =>
    let index := behind.length
    let above := (last[index + 1]?).getD 0
    let diagonal := (last[index]?).getD 0
    let plain := min (min (left + 1) (above + 1)) (diagonal + if a = b then 0 else 1)
    let value :=
      if previous = some b ∧ before = some a ∧ 0 < index then
        min plain ((older[index - 1]?).getD 0 + 1)
      else plain
    left :: nextRow b before older last rest (some a) (left :: behind) value

/-- Fills the table of distances row by row; the result is the last row. -/
def rows (word : List Char) : List Char → Option Char → Nat → List Nat → List Nat → List Nat
  | [], _, _, _, last => last
  | b :: rest, before, count, older, last =>
    rows word rest (some b) (count + 1) last (nextRow b before older last word none [] (count + 1))

/-- The number of changes between two words; words of very different lengths count as wholly
different. -/
def distance (a b : List Char) : Nat :=
  if maxDistance < max a.length b.length - min a.length b.length then max a.length b.length
  else ((rows a b none 0 [] (List.range (a.length + 1))).getLast?).getD 0

/-- Two words of a length are close: more than two fifths of them agree. -/
def isClose (length changes : Nat) : Bool :=
  2 * length < 5 * (length - changes)

/-- The candidates with the least distance so far. -/
structure Closest where
  distance : Nat := maxDistance
  words : List String := []

/-- Looks at a further candidate. -/
def Closest.consider (word : List Char) (c : Closest) (candidate : String) : Closest :=
  let changes := CommandLine.distance word candidate.toList
  if isClose (max word.length candidate.length) changes then
    if changes < c.distance then ⟨changes, [candidate]⟩
    else if changes = c.distance then { c with words := c.words ++ [candidate] }
    else c
  else c

/-- The candidates closest to a word, in ascending order. -/
def closest (word : String) (candidates : List String) : List String :=
  let usable := candidates.eraseDups.filter fun candidate => 1 < candidate.length
  Text.sorted (usable.foldl (Closest.consider word.toList) {}).words

/-- A question that names suggestions. -/
def question : List String → String
  | [] => ""
  | [word] => "\n(Did you mean " ++ word ++ "?)"
  | words => "\n(Did you mean one of " ++ Text.joinWith ", " words ++ "?)"

/-- The question about an unknown command. -/
def suggestCommand (word : String) (candidates : List String) : String :=
  question (closest word candidates)

/-- The word without the dashes of a long option. -/
def withoutDashes (option : String) : String :=
  String.ofList (option.toList.drop 2)

/-- The question about an unknown option; only long options get suggestions. -/
def suggestOption (option : String) (candidates : List String) : String :=
  if Text.startsWith ['-', '-'] option.toList then
    question ((closest (withoutDashes option) (candidates.map withoutDashes)).map ("--" ++ ·))
  else ""

end CommandLine
end WorkflowDag
