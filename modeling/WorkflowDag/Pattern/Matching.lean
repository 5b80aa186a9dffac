import WorkflowDag.Pattern.Basic

/-!
# Matching

Backtracking search for the first match of a pattern.  A matcher takes the rest of the work as a
continuation; a repetition stops after a round that consumed nothing, which bounds its rounds by the
length of the text.
-/

namespace WorkflowDag
namespace Pattern

/-- A place in the text together with the spans the groups have captured so far. -/
structure Place where
  index : Nat
  captures : List (Option (Nat × Nat))
deriving Repr

/-- The rest of the work: the final place, if it can be done from here. -/
abbrev Rest := Place → Option Place

/-- Records the span of a group. -/
def Place.record (p : Place) (group start stop : Nat) : Place :=
  { p with captures := p.captures.set (group - 1) (some (start, stop)) }

/-- Forgets what `count` groups from `first` on have captured. -/
def Place.forget (p : Place) (first : Nat) : Nat → Place
  | 0 => p
  | count + 1 =>
    { p with captures := (p.forget first count).captures.set (first + count - 1) none }

/-- The span a group has captured. -/
def Place.span? (p : Place) (group : Nat) : Option (Nat × Nat) :=
  (p.captures[group - 1]?).join

/-- Takes one unit forwards or backwards when it satisfies `ok`. -/
def takeUnit (text : Array Char) (back : Bool) (ok : Char → Bool) (k : Rest) (p : Place) :
    Option Place :=
  if back then
    if p.index = 0 then none
    else
      match text[p.index - 1]? with
      | some c => if ok c then k { p with index := p.index - 1 } else none
      | none => none
  else
    match text[p.index]? with
    | some c => if ok c then k { p with index := p.index + 1 } else none
    | none => none

/-- A word unit stands at the index. -/
def wordAt (text : Array Char) (index : Nat) : Bool :=
  match text[index]? with
  | some c => isWord c
  | none => false

/-- The place lies between a word unit and another or an end of the text. -/
def atBoundary (text : Array Char) (index : Nat) : Bool :=
  (decide (0 < index) && wordAt text (index - 1)) != wordAt text index

/-- The units from `start` and from `other` agree for the given length. -/
def sameUnits (text : Array Char) (start other : Nat) : Nat → Bool
  | 0 => true
  | n + 1 => text[start + n]? == text[other + n]? && sameUnits text start other n

/-- Matches again what a group has captured. -/
def takeSpan (text : Array Char) (back : Bool) (span : Option (Nat × Nat)) (k : Rest) (p : Place) :
    Option Place :=
  match span with
  | none => k p
  | some (start, stop) =>
    let length := stop - start
    if back then
      if p.index < length then none
      else if sameUnits text start (p.index - length) length then
        k { p with index := p.index - length }
      else none
    else if text.size < p.index + length then none
    else if sameUnits text start p.index length then k { p with index := p.index + length }
    else none

/-- Repeats `body`.  A round beyond the least number that consumes nothing counts as a failure, so
the number of rounds that can succeed is bounded and `rounds` is never used up. -/
def repeatBody (body : Rest → Rest) (greedy : Bool) (firstGroup groupCount : Nat) (k : Rest) :
    Nat → Nat → Option Nat → Rest
  | 0, _, _, p => k p
  | rounds + 1, least, most, p =>
    if most = some 0 then k p
    else
      let next : Rest := fun q =>
        if least = 0 ∧ q.index = p.index then none
        else repeatBody body greedy firstGroup groupCount k rounds (least - 1)
          (most.map fun n => n - 1) q
      let round : Unit → Option Place := fun _ => body next (p.forget firstGroup groupCount)
      if least ≠ 0 then round ()
      else if greedy then
        match round () with
        | some q => some q
        | none => k p
      else
        match k p with
        | some q => some q
        | none => round ()

/-- Matches a pattern at a place and goes on with `k`; `back` reads the text backwards. -/
def run (text : Array Char) : Pattern → Bool → Rest → Rest
  | empty, _, k, p => k p
  | char u, back, k, p => takeUnit text back (fun c => Text.unit c == u) k p
  | dot, back, k, p => takeUnit text back (fun c => !Text.isLineEnd c) k p
  | oneOf negated items, back, k, p =>
    takeUnit text back (fun c => (items.any fun item => item.holds c) != negated) k p
  | atStart, _, k, p => if p.index = 0 then k p else none
  | atEnd, _, k, p => if p.index = text.size then k p else none
  | boundary negated, _, k, p => if atBoundary text p.index != negated then k p else none
  | backref group, back, k, p => takeSpan text back (p.span? group) k p
  | capture group body, back, k, p =>
    body.run text back
      (fun q => k (q.record group (min p.index q.index) (max p.index q.index))) p
  | look behind negated body, _, k, p =>
    match body.run text behind some p with
    | some q => if negated then none else k { p with captures := q.captures }
    | none => if negated then k p else none
  | seq first second, back, k, p =>
    if back then second.run text back (first.run text back k) p
    else first.run text back (second.run text back k) p
  | alt first second, back, k, p =>
    match first.run text back k p with
    | some q => some q
    | none => second.run text back k p
  | many least most greedy firstGroup groupCount body, back, k, p =>
    repeatBody (fun next q => body.run text back next q) greedy firstGroup groupCount k
      (least + text.size + 2) least most p

/-- The match of a pattern that begins at the index. -/
def matchAt? (text : Array Char) (tree : Pattern) (groups index : Nat) : Option Place :=
  tree.run text false some ⟨index, List.replicate groups none⟩

/-- The first match that begins at the index or at one of the next `count` places. -/
def searchFrom? (text : Array Char) (tree : Pattern) (groups : Nat) :
    Nat → Nat → Option (Nat × Place)
  | 0, index => (matchAt? text tree groups index).map fun p => (index, p)
  | count + 1, index =>
    match matchAt? text tree groups index with
    | some p => some (index, p)
    | none => searchFrom? text tree groups count (index + 1)

/-- The pattern matches the whole text. -/
def matchesAll (tree : Pattern) (groups : Nat) (text : List Char) : Bool :=
  ((seq tree atEnd).run text.toArray false some ⟨0, List.replicate groups none⟩).isSome

end Pattern
end WorkflowDag
