import WorkflowDag.Glob.Class
import WorkflowDag.Glob.Part
import WorkflowDag.Pattern.Matching

/-!
# Segments of a glob

What a segment of a glob matches: a fixed name, the names of a simple shape, the names that a
pattern describes, or any number of names.  The names `.` and `..` are matched only by themselves.
-/

namespace WorkflowDag
namespace Glob

/-- A piece of a compiled segment. -/
inductive Atom where
  | literal (unit : Char)
  /-- Matches one of several units, or a run of any. -/
  | wild (pattern : Pattern)
  /-- A group, or a class that matches nothing. -/
  | other (pattern : Pattern)
deriving Repr

namespace Atom

/-- The pattern of an atom. -/
def pattern : Atom → Pattern
  | literal c => .char (Text.unit c)
  | wild p => p
  | other p => p

/-- The atom may match a point at the start of a name. -/
def isWild : Atom → Bool
  | wild _ => true
  | _ => false

/-- The atom is a point. -/
def isPoint : Atom → Bool
  | literal c => c == '.'
  | _ => false

/-- The unit of an atom that is just that. -/
def literal? : Atom → Option Char
  | literal c => some c
  | _ => none

end Atom

/-- Any unit but a slash. -/
def anyUnit : Pattern := .oneOf true [unitRange '/' '/']

/-- A run of at least `least` units. -/
def anyRun (least : Nat) : Pattern := .many least none false 0 0 anyUnit

/-- A pattern that matches nothing. -/
def nothing : Pattern := .seq .atEnd .dot

/-- The name is not `.` or `..`. -/
def notDots : Pattern :=
  .look false true
    (.sequence [.atStart, .char 46, .many 0 (some 1) true 0 0 (.char 46), .atEnd])

/-- Compiles text with wildcards.  `alone` says that the text is all of its segment, and then a lone
star does not match the empty name.  Each step takes a unit. -/
def textAtoms (alone : Bool) : Nat → List Char → List Atom
  | 0, _ => []
  | _ + 1, [] => []
  | _ + 1, ['\\'] => [.literal '\\']
  | steps + 1, '\\' :: c :: cs => .literal c :: textAtoms false steps cs
  | steps + 1, '*' :: cs =>
    .wild (anyRun (if alone && cs.isEmpty then 1 else 0)) :: textAtoms false steps cs
  | steps + 1, '?' :: cs => .wild anyUnit :: textAtoms false steps cs
  | steps + 1, '[' :: cs =>
    match classOf? cs with
    | some (.literal c, rest) => .literal c :: textAtoms false steps rest
    | some (.oneOf negated members excluded, rest) =>
      (if members.isEmpty || excluded.isEmpty then .wild (classPattern negated members excluded)
        else .other (classPattern negated members excluded)) :: textAtoms false steps rest
    | some (.impossible, _) => [.other nothing]
    | none => .literal '[' :: textAtoms false steps cs
  | steps + 1, c :: cs => .literal c :: textAtoms false steps cs

/-- The pattern of atoms at the start of a segment. -/
def guardedStart (atoms : List Atom) : Bool :=
  match atoms with
  | a :: b :: c :: _ =>
    a.isWild || (a.isPoint && b.isWild) || (a.isPoint && b.isPoint && c.isWild)
  | [a, b] => a.isWild || (a.isPoint && b.isWild)
  | [a] => a.isWild
  | [] => false

/-- The atoms one after the other, guarded against `.` and `..` where a wildcard could match them.
-/
def atomsPattern (atStart : Bool) (atoms : List Atom) : Pattern :=
  let body := Pattern.sequence (atoms.map Atom.pattern)
  if atStart && guardedStart atoms then .seq notDots body else body

/-- The pattern of a group whose alternatives are compiled. -/
def groupPattern (kind : GroupKind) (openEnded : Bool) (alternatives : List Pattern) : Pattern :=
  let body := Pattern.choice alternatives
  match kind with
  | .once => body
  | .atMostOnce => .many 0 (some 1) true 0 0 body
  | .atLeastOnce => .many 1 none true 0 0 body
  | .anyNumber => .many 0 none true 0 0 body
  | .never =>
    if openEnded then anyRun 1
    else
      .seq (.look false true (Pattern.choice (alternatives.map fun p => .seq p .atEnd))) (anyRun 0)

/-- The part is text. -/
def Part.isText : Part → Bool
  | .text _ => true
  | _ => false

mutual

/-- What an excluding group has to look at: behind each of its alternatives stands all that follows
the group in the segment, which is `behind` for the last part. -/
def fillTails (behind : List Part) : List Part → List Part
  | [] => []
  | .text units :: rest => .text units :: fillTails behind rest
  | .group kind openEnded alternatives :: rest =>
    let rest' := fillTails behind rest
    let filled := fillAlternatives (rest' ++ behind) (kind == .never) alternatives
    .group kind openEnded filled :: rest'

/-- Fills the tails inside alternatives, and puts the tail behind them where it belongs. -/
def fillAlternatives (behind : List Part) (append : Bool) : List (List Part) → List (List Part)
  | [] => []
  | parts :: rest =>
    (if append then fillTails behind parts ++ behind else fillTails behind parts) ::
      fillAlternatives behind append rest

end

/-- Where parts stand: at the start of the segment, and at its end. -/
structure Position where
  atStart : Bool
  atEnd : Bool

/-- The text of a group of empty alternatives. -/
def emptyGroupText (kind : GroupKind) (alternatives : Nat) : List Char :=
  kind.sign :: '(' :: List.replicate (alternatives - 1) '|' ++ [')']

mutual

/-- Compiles parts.  `here` is where the whole list stands, `before` says that only excluding groups
come before. -/
def partAtoms (here : Position) (before : Bool) : List Part → List Atom
  | [] => []
  | .text units :: rest =>
    textAtoms (here.atStart && here.atEnd) (units.length + 1) units ++ partAtoms here false rest
  | .group kind openEnded alternatives :: rest =>
    let place : Position := ⟨here.atStart && before, here.atEnd && rest.isEmpty⟩
    let inner : Position := ⟨place.atStart, kind == .never || place.atEnd⟩
    let whole := place.atStart && place.atEnd
    let filled := alternatives.filter fun parts => !parts.isEmpty
    let atoms :=
      if whole && filled.isEmpty && kind != .never then
        (emptyGroupText kind alternatives.length).map Atom.literal
      else
        let compiled := alternativePatterns inner alternatives
        let used :=
          if whole && kind != .never then compiled.filter fun p => p != .empty else compiled
        [.other (groupPattern kind openEnded used)]
    atoms ++ partAtoms here (before && kind == .never) rest

/-- Compiles the alternatives of a group. -/
def alternativePatterns (here : Position) : List (List Part) → List Pattern
  | [] => []
  | parts :: rest =>
    atomsPattern (here.atStart && (parts.head?.map Part.isText).getD false)
      (partAtoms here true parts) :: alternativePatterns here rest

end

/-- What a segment matches. -/
inductive Segment where
  /-- Any number of names. -/
  | deep
  /-- The name itself. -/
  | name (units : List Char)
  /-- Any name. -/
  | anything
  /-- The names that end in some way. -/
  | ending (units : List Char)
  /-- The names of a length that end in some way. -/
  | sized (length : Nat) (units : List Char)
  /-- The names with a point in them. -/
  | dotted
  /-- The names that start with a point. -/
  | hidden
  | pattern (tree : Pattern)
deriving Repr

/-- A unit that starts a wildcard, a class or a group. -/
def isSpecial (c : Char) : Bool :=
  "+@!?*[(".toList.contains c

/-- The simple shape of a segment, if it has one. -/
def simpleShape? (cs : List Char) : Option Segment :=
  let afterStars := cs.dropWhile fun c => c == '*'
  let afterMarks := cs.dropWhile fun c => c == '?'
  if cs.head? = some '*' then
    if afterStars.isEmpty then some .anything
    else if !afterStars.any isSpecial then some (.ending afterStars)
    else if afterStars.head? = some '.' && (afterStars.drop 1).all fun c => c == '*' then
      some .dotted
    else none
  else if cs.head? = some '?' then
    if !afterMarks.any isSpecial then some (.sized cs.length afterMarks) else none
  else if cs.head? = some '.' && cs.length > 1 && (cs.drop 1).all fun c => c == '*' then
    some .hidden
  else none

/-- The text of atoms that are all literal. -/
def literalText? : List Atom → Option (List Char)
  | [] => some []
  | a :: rest => do
    let c ← a.literal?
    let others ← literalText? rest
    pure (c :: others)

/-- Compiles a segment. -/
def segmentOf (cs : List Char) : Segment :=
  if cs = ['*', '*'] then .deep
  else
    match simpleShape? cs with
    | some shape => shape
    | none =>
      let parts := fillTails [] (partsOf cs)
      let atoms := partAtoms ⟨true, true⟩ true parts
      match literalText? atoms with
      | some units => .name units
      | none => .pattern (atomsPattern ((parts.head?.map Part.isText).getD false) atoms)

/-- The name is `.` or `..`. -/
def isDots (name : List Char) : Bool :=
  name == ['.'] || name == ['.', '.']

/-- The segment matches a name. -/
def Segment.holds (s : Segment) (name : List Char) : Bool :=
  match s with
  | deep => !isDots name
  | Segment.name units => name == units
  | anything => !name.isEmpty && !isDots name
  | ending units => units.isSuffixOf name
  | sized length units => name.length == length && !isDots name && units.isSuffixOf name
  | dotted => !isDots name && name.contains '.'
  | hidden => !isDots name && name.head? == some '.'
  | pattern tree => tree.matchesAll 0 name

end Glob
end WorkflowDag
