import WorkflowDag.Pattern.Basic
import WorkflowDag.Text.Cut

/-!
# Bracket classes

A class such as `[a-c_]` in a glob stands for one of its units, and `[!a-c]` or `[^a-c]` for one of
the others.  A range whose ends are in the wrong order holds nothing.
-/

namespace WorkflowDag
namespace Glob

/-- What a class in a glob stands for. -/
inductive ClassMeaning where
  /-- A single unit. -/
  | literal (unit : Char)
  /-- A unit among the members and outside of the excluded ones, or the other way round. -/
  | oneOf (negated : Bool) (members excluded : List ClassItem)
  /-- No text at all: the class spoils everything behind it too. -/
  | impossible
deriving Repr

/-- The range between two units. -/
def unitRange (low high : Char) : ClassItem :=
  .range (Text.unit low) (Text.unit high)

/-- A named class: its members, or what it excludes. -/
structure NamedClass where
  name : String
  items : List ClassItem
  excludes : Bool := false

/-- The ASCII members of the named classes. -/
def namedClasses : List NamedClass :=
  [⟨"[:alnum:]", [unitRange 'a' 'z', unitRange 'A' 'Z', unitRange '0' '9'], false⟩,
    ⟨"[:alpha:]", [unitRange 'a' 'z', unitRange 'A' 'Z'], false⟩,
    ⟨"[:ascii:]", [.range 0 0x7f], false⟩,
    ⟨"[:blank:]", [unitRange ' ' ' ', unitRange '\t' '\t'], false⟩,
    ⟨"[:cntrl:]", [.range 0 0x1f, .range 0x7f 0x9f], false⟩,
    ⟨"[:digit:]", [unitRange '0' '9'], false⟩,
    ⟨"[:graph:]", [unitRange ' ' ' ', .range 0 0x1f, .range 0x7f 0x9f], true⟩,
    ⟨"[:lower:]", [unitRange 'a' 'z'], false⟩,
    ⟨"[:print:]", [.range 0 0x1f, .range 0x7f 0x9f], false⟩,
    ⟨"[:punct:]", [.range 0x21 0x23, .range 0x25 0x2a, .range 0x2c 0x2f, .range 0x3a 0x3b,
      .range 0x3f 0x40, .range 0x5b 0x5d, .range 0x5f 0x5f, .range 0x7b 0x7b, .range 0x7d 0x7d],
      false⟩,
    ⟨"[:space:]", [unitRange ' ' ' ', .range 0x09 0x0d], false⟩,
    ⟨"[:upper:]", [unitRange 'A' 'Z'], false⟩,
    ⟨"[:word:]", [unitRange 'a' 'z', unitRange 'A' 'Z', unitRange '0' '9', unitRange '_' '_'],
      false⟩,
    ⟨"[:xdigit:]", [unitRange 'a' 'f', unitRange 'A' 'F', unitRange '0' '9'], false⟩]

/-- The named class at the front and what stands behind it. -/
def namedClass? (cs : List Char) : Option (NamedClass × List Char) :=
  namedClasses.findSome? fun named =>
    (Text.after? named.name.toList cs).map fun rest => (named, rest)

/-- What has been read of a class. -/
structure ClassScan where
  negated : Bool
  /-- A unit of the class has been seen, so a bracket may close it. -/
  started : Bool := false
  escaping : Bool := false
  /-- The lower end of a range. -/
  low : Option Char := none
  members : List ClassItem := []
  excluded : List ClassItem := []
  /-- The only members so far is this unit. -/
  single : Option Char := none
deriving Repr

/-- Adds members; `single` names the unit when they are just that. -/
def ClassScan.add (s : ClassScan) (items : List ClassItem) (single : Option Char) : ClassScan :=
  { s with
    members := s.members ++ items
    single := if s.members.isEmpty then single else none }

/-- What a class means once it is closed. -/
def ClassScan.meaning (s : ClassScan) : ClassMeaning :=
  if s.members.isEmpty && s.excluded.isEmpty then .impossible
  else
    match s.single with
    | some c => if s.negated || !s.excluded.isEmpty then .oneOf s.negated s.members s.excluded
        else .literal c
    | none => .oneOf s.negated s.members s.excluded

/-- The range from a lower end to a unit; ends in the wrong order give none. -/
def ClassScan.closeRange (s : ClassScan) (low c : Char) : ClassScan :=
  let s' := { s with low := none }
  if Text.unit low < Text.unit c then s'.add [unitRange low c] none
  else if low = c then s'.add [unitRange c c] (some c)
  else s'

/-- Reads a class behind its opening bracket and its negation.  There is none when it is not closed.
Each step takes a unit. -/
def readClass : Nat → ClassScan → List Char → Option (ClassMeaning × List Char)
  | 0, _, _ => none
  | _ + 1, _, [] => none
  | steps + 1, s, c :: cs =>
    if c = ']' ∧ s.started ∧ !s.escaping then some (s.meaning, cs)
    else if c = '\\' ∧ !s.escaping then
      readClass steps { s with started := true, escaping := true } cs
    else
      match (if c = '[' ∧ !s.escaping then namedClass? (c :: cs) else none) with
      | some (named, rest) =>
        if s.low.isSome then some (.impossible, [])
        else if named.excludes then
          readClass steps { s with started := true, excluded := s.excluded ++ named.items } rest
        else readClass steps (({ s with started := true }).add named.items none) rest
      | none =>
        let s' := { s with started := true, escaping := false }
        match s.low with
        | some low => readClass steps (s'.closeRange low c) cs
        | none =>
          match cs with
          | '-' :: ']' :: rest =>
            readClass steps (s'.add [unitRange c c, unitRange '-' '-'] none) (']' :: rest)
          | '-' :: rest => readClass steps { s' with low := some c } rest
          | _ => readClass steps (s'.add [unitRange c c] (some c)) cs

/-- Reads a class behind its opening bracket. -/
def classOf? (cs : List Char) : Option (ClassMeaning × List Char) :=
  match cs with
  | c :: rest =>
    if c = '!' ∨ c = '^' then readClass (cs.length + 1) { negated := true } rest
    else readClass (cs.length + 1) { negated := false } cs
  | [] => none

/-- The pattern of a class. -/
def classPattern (negated : Bool) (members excluded : List ClassItem) : Pattern :=
  if excluded.isEmpty then .oneOf negated members
  else if members.isEmpty then .oneOf (!negated) excluded
  else .alt (.oneOf negated members) (.oneOf (!negated) excluded)

end Glob
end WorkflowDag
