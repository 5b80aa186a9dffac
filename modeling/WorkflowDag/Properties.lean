import WorkflowDag.Error
import WorkflowDag.Template.Evaluation

/-!
# Property files

A property file holds one entry on each line: a name, a separator and a value.  The separator is
`=`, `:` or white space.  Lines that start with `#` or `!` are comments, and a backslash at the end
of a line joins it with the next one.
-/

namespace WorkflowDag
namespace Properties

/-- The lines of a text, which end at a line feed or at a carriage return with a line feed. -/
def lines : List Char → List (List Char)
  | [] => [[]]
  | '\n' :: cs => [] :: lines cs
  | '\r' :: '\n' :: cs => [] :: lines cs
  | c :: cs =>
    match lines cs with
    | [] => [[c]]
    | line :: rest => (c :: line) :: rest

/-- The number of backslashes at the end of a line. -/
def trailingBackslashes (line : List Char) : Nat :=
  (line.reverse.takeWhile fun c => c == '\\').length

/-- The line goes on: an odd number of backslashes ends it. -/
def goesOn (line : List Char) : Bool :=
  trailingBackslashes line % 2 == 1

/-- The line says nothing. -/
def isComment : List Char → Bool
  | [] => true
  | c :: _ => c == '#' || c == '!'

/-- Joins a line with the lines that continue it; the rest are the lines behind. -/
def continued : List Char → List (List Char) → List Char × List (List Char)
  | line, [] => (line, [])
  | line, next :: rest =>
    if goesOn line then continued (line.dropLast ++ Text.trimStartUnits next) rest
    else (line, next :: rest)

theorem continued_length_le (line : List Char) (rest : List (List Char)) :
    (continued line rest).2.length ≤ rest.length := by
  induction rest generalizing line with
  | nil => simp [continued]
  | cons next rest ih =>
    rw [continued]
    split
    · exact Nat.le_succ_of_le (ih _)
    · exact Nat.le_refl _

/-- The lines that hold entries, continuations joined. -/
def logicalLines : List (List Char) → List (List Char)
  | [] => []
  | line :: rest =>
    let start := Text.trimStartUnits line
    if isComment start then logicalLines rest
    else (continued start rest).1 :: logicalLines (continued start rest).2
termination_by lines => lines.length
decreasing_by
  · exact Nat.lt_succ_self _
  · exact Nat.lt_succ_of_le (continued_length_le _ _)

/-- A unit that ends the name of an entry. -/
def isSeparator (c : Char) : Bool :=
  c == '=' || c == ':' || Text.isBlank c

/-- Drops the separator in front of a value. -/
def dropSeparator (cs : List Char) : List Char :=
  match Text.trimStartUnits cs with
  | c :: rest => if c == '=' || c == ':' then Text.trimStartUnits rest else c :: rest
  | [] => []

/-- The entry on a line. -/
def entryOf (line : List Char) : String × String :=
  let name := line.takeWhile fun c => !isSeparator c
  let value := Text.trimEndUnits (dropSeparator (line.dropWhile fun c => !isSeparator c))
  (String.ofList name, String.ofList value)

/-- The entries of a property file in order, repeated names included. -/
def read (text : String) : List (String × String) :=
  (logicalLines (lines text.toList)).map entryOf

/-- Adds entries to a record; each value may refer to the entries before it. -/
def expandEntries (source : String) : Record → List (String × String) → Except Error Record
  | r, [] => .ok r
  | r, (name, value) :: rest =>
    match Template.interpolate { definitions := r } value with
    | .ok text => expandEntries source (r.assign name text) rest
    | .error cause => .error (.configuration source [.property name cause])

/-- Adds the entries of a property file to a record. -/
def expand (text : String) (base : Record) (source : String) : Except Error Record :=
  expandEntries source base (read text)

end Properties
end WorkflowDag
