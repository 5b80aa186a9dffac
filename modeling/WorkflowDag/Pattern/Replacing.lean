import WorkflowDag.Pattern.Matching
import WorkflowDag.Pattern.Reading

/-!
# Replacing matches

All matches of a pattern in a text, from left to right without overlap, and the text with every
match replaced.  An empty match moves the search on by one unit.
-/

namespace WorkflowDag
namespace SearchPattern

/-- One match: where it begins and ends, and what its groups captured. -/
structure Match where
  start : Nat
  stop : Nat
  captures : List (Option (Nat × Nat))
deriving Repr

/-- The matches from an index on.  Each search begins later than the one before, so one step per
unit and one for the end suffice. -/
def matchesFrom (p : SearchPattern) (text : Array Char) : Nat → Nat → List Match
  | 0, _ => []
  | steps + 1, index =>
    if text.size < index then []
    else
      match Pattern.searchFrom? text p.tree p.groups (text.size - index) index with
      | none => []
      | some (start, place) =>
        ⟨start, place.index, place.captures⟩ ::
          p.matchesFrom text steps (if place.index = start then place.index + 1 else place.index)

/-- All matches in a text. -/
def allMatches (p : SearchPattern) (text : List Char) : List Match :=
  p.matchesFrom text.toArray (text.length + 1) 0

/-- The units from `start` to `stop`. -/
def slice (text : List Char) (start stop : Nat) : List Char :=
  (text.drop start).take (stop - start)

/-- What a group captured, nothing when it captured nothing. -/
def Match.group (m : Match) (text : List Char) (group : Nat) : List Char :=
  match (m.captures[group - 1]?).join with
  | some (start, stop) => slice text start stop
  | none => []

/-- Value of a reference of one or two digits, of which as many are used as name a group. -/
def groupRef? (groups : Nat) (first : Char) (rest : List Char) : Option (Nat × List Char) :=
  let one := first.toNat - 48
  let single : Option (Nat × List Char) :=
    if 1 ≤ one ∧ one ≤ groups then some (one, rest) else none
  match rest with
  | second :: rest' =>
    if second.isDigit then
      let two := one * 10 + (second.toNat - 48)
      if two ≤ groups then (if 1 ≤ two then some (two, rest') else none) else single
    else single
  | [] => single

/-- Writes out a replacement text for one match: `$$` is a dollar sign, `$&` the match, `` $` `` and
`$'` what precedes and follows it, `$n` a group and `$<name>` a named group.  Each step consumes a
unit of the template. -/
def substitute (p : SearchPattern) (text : List Char) (m : Match) : Nat → List Char → List Char
  | 0, _ => []
  | _ + 1, [] => []
  | steps + 1, '$' :: '$' :: rest => '$' :: p.substitute text m steps rest
  | steps + 1, '$' :: '&' :: rest =>
    slice text m.start m.stop ++ p.substitute text m steps rest
  | steps + 1, '$' :: '\x60' :: rest => text.take m.start ++ p.substitute text m steps rest
  | steps + 1, '$' :: '\x27' :: rest => text.drop m.stop ++ p.substitute text m steps rest
  | steps + 1, '$' :: '<' :: rest =>
    match p.names, Text.cut? ['>'] rest with
    | _ :: _, some (name, rest') =>
      let group := (p.names.find? fun entry => entry.1 == String.ofList name).map Prod.snd
      (match group with
        | some g => m.group text g
        | none => []) ++ p.substitute text m steps rest'
    | _, _ => '$' :: '<' :: p.substitute text m steps rest
  | steps + 1, '$' :: c :: rest =>
    if c.isDigit then
      match groupRef? p.groups c rest with
      | some (group, rest') => m.group text group ++ p.substitute text m steps rest'
      | none => '$' :: c :: p.substitute text m steps rest
    else '$' :: p.substitute text m steps (c :: rest)
  | steps + 1, c :: rest => c :: p.substitute text m steps rest

/-- The text with each match exchanged for what `write` makes of it. -/
def rebuild (text : List Char) (write : Match → List Char) : Nat → List Match → List Char
  | from_, [] => text.drop from_
  | from_, m :: rest => slice text from_ m.start ++ write m ++ rebuild text write m.stop rest

/-- The text with every match replaced according to a replacement text. -/
def replaceAll (p : SearchPattern) (text : String) (template : String) : String :=
  let cs := text.toList
  let ts := template.toList
  String.ofList (rebuild cs (fun m => p.substitute cs m (ts.length + 1) ts) 0 (p.allMatches cs))

end SearchPattern
end WorkflowDag
