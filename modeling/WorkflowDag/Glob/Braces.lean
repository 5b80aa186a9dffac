import WorkflowDag.Text.Blank
import WorkflowDag.Text.Cut

/-!
# Braces

A glob may stand for several others: `{a,b}` for each of its members and `{1..3}` or `{a..e}` for
each step of a sequence.  `expand` lists the globs that a glob stands for.  A backslash takes the
meaning from a brace, a comma or a point.
-/

namespace WorkflowDag
namespace Glob

/-- A unit of a glob: plain, or deprived of its meaning by a backslash. -/
inductive BraceUnit where
  | plain (unit : Char)
  | escaped (unit : Char)
deriving DecidableEq, Repr

namespace BraceUnit

/-- The unit itself. -/
def unit : BraceUnit → Char
  | plain c => c
  | escaped c => c

/-- The opening brace. -/
def opening : BraceUnit := plain '\x7b'

/-- The closing brace. -/
def closing : BraceUnit := plain '\x7d'

end BraceUnit

/-- A unit from which a backslash takes the meaning. -/
def isEscapable (c : Char) : Bool :=
  c == '\\' || c == '\x7b' || c == '\x7d' || c == ',' || c == '.'

/-- Takes the backslashes in front of braces, commas, points and backslashes into account. -/
def markEscapes : List Char → List BraceUnit
  | [] => []
  | '\\' :: c :: cs =>
    if isEscapable c then .escaped c :: markEscapes cs else .plain '\\' :: markEscapes (c :: cs)
  | c :: cs => .plain c :: markEscapes cs

/-- What stands before and behind the brace that closes the brace opened `depth` levels further out.
-/
def closeOf : Nat → List BraceUnit → Option (List BraceUnit × List BraceUnit)
  | _, [] => none
  | depth, u :: rest =>
    if u = .opening then (closeOf (depth + 1) rest).map fun parts => (u :: parts.1, parts.2)
    else if u = .closing then
      match depth with
      | 0 => some ([], rest)
      | outer + 1 => (closeOf outer rest).map fun parts => (u :: parts.1, parts.2)
    else (closeOf depth rest).map fun parts => (u :: parts.1, parts.2)

/-- A text cut at its first pair of braces. -/
structure Braced where
  before : List BraceUnit
  body : List BraceUnit
  behind : List BraceUnit
deriving Repr

/-- The first opening brace that is closed, with what is before, inside and behind. -/
def braced? : List BraceUnit → Option Braced
  | [] => none
  | u :: rest =>
    match (if u = .opening then closeOf 0 rest else none) with
    | some (body, behind) => some ⟨[], body, behind⟩
    | none => (braced? rest).map fun b => { b with before := u :: b.before }

/-- The pieces between plain commas. -/
def commaPieces : List BraceUnit → List (List BraceUnit)
  | [] => [[]]
  | u :: rest =>
    if u = .plain ',' then [] :: commaPieces rest
    else
      match commaPieces rest with
      | [] => [[u]]
      | piece :: others => (u :: piece) :: others

/-- Puts two lists of pieces together; the last of the first and the first of the second are one. -/
def gluePieces : List (List BraceUnit) → List (List BraceUnit) → List (List BraceUnit)
  | [], others => others
  | [piece], other :: others => (piece ++ other) :: others
  | [piece], [] => [piece]
  | piece :: pieces, others => piece :: gluePieces pieces others

/-- The members of a braced list; commas inside inner braces do not count. -/
def members : Nat → List BraceUnit → List (List BraceUnit)
  | 0, us => commaPieces us
  | steps + 1, us =>
    match braced? us with
    | none => commaPieces us
    | some b =>
      gluePieces (gluePieces (commaPieces b.before) [.opening :: b.body ++ [.closing]])
        (members steps b.behind)

/-- The units of a text without escapes. -/
def plainUnits? : List BraceUnit → Option (List Char)
  | [] => some []
  | .plain c :: rest => (plainUnits? rest).map (c :: ·)
  | .escaped _ :: _ => none

/-- The pieces between double points. -/
def pointPieces : List Char → List (List Char)
  | [] => [[]]
  | '.' :: '.' :: cs => [] :: pointPieces cs
  | c :: cs =>
    match pointPieces cs with
    | [] => [[c]]
    | piece :: rest => (c :: piece) :: rest

/-- A whole number with an optional minus sign. -/
def whole? : List Char → Option Int
  | '-' :: digits =>
    if digits ≠ [] ∧ digits.all Char.isDigit then
      some (-(digits.foldl (fun acc c => acc * 10 + (c.toNat - 48 : Nat)) (0 : Nat) : Nat))
    else none
  | digits =>
    if digits ≠ [] ∧ digits.all Char.isDigit then
      some (digits.foldl (fun acc c => acc * 10 + (c.toNat - 48 : Nat)) (0 : Nat) : Nat)
    else none

/-- A sequence: its ends, the distance of its steps and how a step is written. -/
structure Steps where
  first : Int
  last : Int
  distance : Nat
  /-- Steps are letters. -/
  letters : Bool
  /-- The least number of units of a written number. -/
  width : Nat
deriving Repr

/-- A number with a leading zero. -/
def isPadded (cs : List Char) : Bool :=
  match cs with
  | '-' :: '0' :: c :: _ => c.isDigit
  | '0' :: c :: _ => c.isDigit
  | _ => false

/-- The distance between steps that a text gives. -/
def distanceOf (n : Int) : Nat :=
  max n.natAbs 1

/-- The sequence between two ends, each a number or each a letter. -/
def stepsOf? (first last : List Char) (distance : Nat) (padded : Bool) : Option Steps :=
  match whole? first, whole? last with
  | some x, some y =>
    some ⟨x, y, distance, false, if padded then max first.length last.length else 0⟩
  | _, _ =>
    match first, last with
    | [a], [b] =>
      if a.isAlpha && b.isAlpha then some ⟨a.toNat, b.toNat, distance, true, 0⟩ else none
    | _, _ => none

/-- The sequence that the inside of braces denotes. -/
def sequence? (body : List BraceUnit) : Option Steps := do
  let cs ← plainUnits? body
  match pointPieces cs with
  | [first, last] => stepsOf? first last 1 (isPadded first || isPadded last)
  | [first, last, step] => do
    let distance ← whole? step
    stepsOf? first last (distanceOf distance) (isPadded first || isPadded last || isPadded step)
  | _ => none

/-- A number with zeros in front up to a width, the sign included. -/
def paddedNumber (width : Nat) (n : Int) : List Char :=
  let digits := Nat.toDigits 10 n.natAbs
  if n < 0 then '-' :: List.replicate (width - 1 - digits.length) '0' ++ digits
  else List.replicate (width - digits.length) '0' ++ digits

/-- A step as it is written; a backslash among letters is left out. -/
def Steps.write (s : Steps) (n : Int) : List BraceUnit :=
  if s.letters then
    (if n.toNat = 92 then [] else [.plain (Char.ofNat n.toNat)])
  else (paddedNumber s.width n).map .plain

/-- The steps of a sequence as they are written. -/
def Steps.all (s : Steps) : List (List BraceUnit) :=
  let count := (s.last - s.first).natAbs / s.distance + 1
  (List.range count).map fun k =>
    s.write (if s.last < s.first then s.first - (k * s.distance : Nat)
      else s.first + (k * s.distance : Nat))

/-- A plain closing brace follows a plain comma on the same line. -/
def hasLaterMember : Bool → List BraceUnit → Bool
  | _, [] => false
  | seen, u :: rest =>
    if u = .plain ',' then hasLaterMember true rest
    else if u = .closing then seen || hasLaterMember seen rest
    else if Text.isLineEnd u.unit then hasLaterMember false rest
    else hasLaterMember seen rest

/-- Every text of the first list followed by every text of the second. -/
def combine (before : List BraceUnit) (inside behind : List (List BraceUnit)) :
    List (List BraceUnit) :=
  inside.flatMap fun a => behind.map fun b => before ++ a ++ b

/-- A text in braces. -/
def embraced (us : List BraceUnit) : List BraceUnit :=
  .opening :: us ++ [.closing]

/-- The texts that a text with braces stands for.  At the top, members leave no empty text.  Each
step works on a shorter text or takes the meaning from a brace. -/
def expandUnits : Nat → Bool → List BraceUnit → List (List BraceUnit)
  | 0, _, us => [us]
  | steps + 1, top, us =>
    match braced? us with
    | none => [us]
    | some b =>
      let behind := if b.behind.isEmpty then [[]] else expandUnits steps false b.behind
      if b.before.getLast? = some (.plain '$') then combine b.before [embraced b.body] behind
      else
        match sequence? b.body with
        | some s => combine b.before s.all behind
        | none =>
          if !b.body.contains (.plain ',') then
            if hasLaterMember false b.behind then
              expandUnits steps false
                (b.before ++ .opening :: b.body ++ .escaped '\x7d' :: b.behind)
            else [us]
          else
            let keep (texts : List (List BraceUnit)) : List (List BraceUnit) :=
              if top then texts.filter fun text => !text.isEmpty else texts
            match members b.body.length b.body with
            | [only] =>
              match (expandUnits steps false only).map embraced with
              | [single] => combine b.before [single] behind
              | several =>
                keep (combine b.before (several.flatMap (expandUnits steps false)) behind)
            | several => keep (combine b.before (several.flatMap (expandUnits steps false)) behind)

/-- Some opening brace is followed by a closing one on the same line with no other in between. -/
def hasBraces : Bool → List Char → Bool
  | _, [] => false
  | opened, c :: cs =>
    if c = '\x7b' then hasBraces true cs
    else if c = '\x7d' then opened || hasBraces opened cs
    else if Text.isLineEnd c then hasBraces false cs
    else hasBraces opened cs

/-- Empty braces at the start have no meaning. -/
def keepLeadingBraces : List Char → List Char
  | '\x7b' :: '\x7d' :: cs => '\\' :: '\x7b' :: '\\' :: '\x7d' :: cs
  | cs => cs

/-- The globs that a glob stands for. -/
def expand (cs : List Char) : List (List Char) :=
  if hasBraces false cs then
    let units := markEscapes (keepLeadingBraces cs)
    ((expandUnits (2 * units.length + 1) true units).map fun us => us.map BraceUnit.unit).eraseDups
  else [cs]

end Glob
end WorkflowDag
