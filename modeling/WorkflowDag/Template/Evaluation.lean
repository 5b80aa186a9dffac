import WorkflowDag.Expression.Evaluation
import WorkflowDag.Template.Basic

/-!
# Evaluating templates and guards

A template is read as a whole before any of its expressions is evaluated.  The guards of a decision
are templates too: the first one whose value is neither empty nor `false` holds.
-/

namespace WorkflowDag
namespace Template

/-- What stands for a variable whose value is left to the running DAG. -/
def deferred (name : String) : String :=
  "\x7b\x7b params[\x27" ++ name ++ "\x27] \x7d\x7d"

/-- The text of a segment.  A bare variable without a value is deferred where the scope says so. -/
def evalSegment (scope : Scope) : Segment → Except EvalError String
  | .plain text => .ok text
  | .expression _ parsed =>
    match parsed with
    | .reference name =>
      if scope.unresolved = .defer ∧ (scope.lookup? name).isNone then .ok (deferred name)
      else (parsed.eval scope).map Value.shown
    | _ => (parsed.eval scope).map Value.shown

/-- The texts of segments, one after the other. -/
def evalSegments (scope : Scope) : List Segment → Except EvalError String
  | [] => .ok ""
  | segment :: rest => do
    let first ← evalSegment scope segment
    let others ← evalSegments scope rest
    pure (first ++ others)

/-- A text with its expressions replaced by their values. -/
def interpolate (scope : Scope) (text : String) : Except EvalError String :=
  if Text.contains opener text.toList then do
    let segments ← read text
    evalSegments scope segments
  else .ok text

end Template

/-- A value that makes a guard hold. -/
def holds (value : String) : Bool :=
  value != "" && value != "false"

/-- The outcome of evaluating the guards of a decision. -/
structure GuardChoice where
  /-- Position of the first guard that holds. -/
  index : Option Nat
  /-- Values of the guards that were evaluated. -/
  values : List String
deriving DecidableEq, Repr

namespace GuardChoice

/-- Evaluates guards in order, behind `position` others of which `found` was the first to hold.
Without `exhaustive` the first guard that holds is the last one evaluated. -/
def evaluate (scope : Scope) (exhaustive : Bool) :
    Nat → Option Nat → List String → Except EvalError GuardChoice
  | _, found, [] => .ok ⟨found, []⟩
  | position, found, guard :: rest => do
    let value ← Template.interpolate scope (Text.trim guard)
    let first := found.isNone && holds value
    let found' := if first then some position else found
    if first && !exhaustive then pure ⟨found', [value]⟩
    else
      let others ← evaluate scope exhaustive (position + 1) found' rest
      pure ⟨others.index, value :: others.values⟩

end GuardChoice

/-- Selects among guards; a variable without a value is an error here, whatever the scope says. -/
def chooseGuard (scope : Scope) (exhaustive : Bool) (guards : List String) :
    Except EvalError GuardChoice :=
  GuardChoice.evaluate { scope with unresolved := .error } exhaustive 0 none guards

end WorkflowDag
