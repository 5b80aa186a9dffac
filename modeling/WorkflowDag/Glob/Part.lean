import WorkflowDag.Text.Units

/-!
# Parts of a glob segment

A segment of a glob is text with wildcards, and groups such as `@(a|b)` with alternatives that hold
text and groups again.  A group that is not closed is text like any other.
-/

namespace WorkflowDag
namespace Glob

/-- How often one of the alternatives of a group occurs. -/
inductive GroupKind where
  | once
  | atMostOnce
  | atLeastOnce
  | anyNumber
  /-- Anything stands here but one of the alternatives. -/
  | never
deriving DecidableEq, Repr

namespace GroupKind

/-- The sign of a kind, which stands in front of a parenthesis. -/
def sign : GroupKind → Char
  | once => '@'
  | atMostOnce => '?'
  | atLeastOnce => '+'
  | anyNumber => '*'
  | never => '!'

/-- The kind of a sign. -/
def ofSign? (c : Char) : Option GroupKind :=
  [once, atMostOnce, atLeastOnce, anyNumber, never].find? fun kind => kind.sign == c

end GroupKind

/-- A part of a segment.  `openEnded` says that no text stands in front of the closing parenthesis.
-/
inductive Part where
  | text (units : List Char)
  | group (kind : GroupKind) (openEnded : Bool) (alternatives : List (List Part))
deriving Repr

/-- Where a scan of a segment stands: behind a backslash, or inside brackets, with the number of
units since the opening one and whether they are negated. -/
structure PartScan where
  escaping : Bool := false
  bracket : Option (Nat × Bool) := none
deriving Repr

/-- Takes a unit that has no meaning for groups; there is none when it may have one. -/
def PartScan.take? (s : PartScan) (c : Char) : Option PartScan :=
  let inside := s.bracket.map fun (count, negated) => (count + 1, negated)
  if s.escaping || c == '\\' then some ⟨!s.escaping, inside⟩
  else
    match s.bracket with
    | some (0, _) => some ⟨false, some (1, c == '^' || c == '!')⟩
    | some (count, negated) =>
      if c == ']' && !(count == 1 && negated) then some ⟨false, none⟩ else some ⟨false, inside⟩
    | none => if c == '[' then some ⟨false, some (0, false)⟩ else none

/-- A text part, left out when it is empty. -/
def textPart (held : List Char) : List Part :=
  if held.isEmpty then [] else [.text held.reverse]

/-- The group that begins here: its kind and what stands behind its parenthesis. -/
def groupStart? (cs : List Char) : Option (GroupKind × List Char) :=
  match cs with
  | c :: '(' :: rest => (GroupKind.ofSign? c).map fun kind => (kind, rest)
  | _ => none

/-- Reads the alternatives of a group up to its closing parenthesis.  `held` is the text read last
and `before` the parts of this alternative in front of it, both in reverse.  Each step takes a unit.
-/
def readGroup : Nat → PartScan → List Char → List Part → List Char →
    Option (List (List Part) × Bool × List Char)
  | 0, _, _, _, _ => none
  | _ + 1, _, _, _, [] => none
  | steps + 1, s, held, before, c :: cs =>
    match s.take? c with
    | some s' => readGroup steps s' (c :: held) before cs
    | none =>
      match groupStart? (c :: cs) with
      | some (kind, inner) =>
        match readGroup steps {} [] [] inner with
        | some (alternatives, openEnded, rest) =>
          readGroup steps {} [] (.group kind openEnded alternatives :: textPart held ++ before) rest
        | none => none
      | none =>
        let done := (textPart held ++ before).reverse
        if c = '|' then
          (readGroup steps {} [] [] cs).map fun (others, openEnded, rest) =>
            (done :: others, openEnded, rest)
        else if c = ')' then some ([done], held.isEmpty, cs)
        else readGroup steps s (c :: held) before cs

/-- Reads the parts of a segment.  `held` is the text read last, in reverse.  Each step takes a
unit. -/
def readParts : Nat → PartScan → List Char → List Char → List Part
  | 0, _, held, cs => textPart (cs.reverse ++ held)
  | _ + 1, _, held, [] => textPart held
  | steps + 1, s, held, c :: cs =>
    match s.take? c with
    | some s' => readParts steps s' (c :: held) cs
    | none =>
      match groupStart? (c :: cs) with
      | none => readParts steps s (c :: held) cs
      | some (kind, inner) =>
        match readGroup (inner.length + 1) {} [] [] inner with
        | some (alternatives, openEnded, rest) =>
          textPart held ++ .group kind openEnded alternatives :: readParts steps {} [] rest
        | none => textPart held ++ [.text (c :: cs)]

/-- The parts of a segment. -/
def partsOf (cs : List Char) : List Part :=
  readParts (cs.length + 1) {} [] cs

end Glob
end WorkflowDag
