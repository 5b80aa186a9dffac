import WorkflowDag.Task.Basic

/-!
# Operators

An operator is a step of the DAG that a module defines: a task, a branch operator that stands for a
decision, or a dummy that marks a branch, a failure or a join.
-/

namespace WorkflowDag

/-- What an operator stands for. -/
inductive OperatorBody where
  | task (task : Task)
  /-- Follows the operator named `chosen`. -/
  | branch (record : ResolvedDecision) (chosen : String)
  | dummy
deriving DecidableEq, Repr

/-- A step of a DAG. -/
structure Operator where
  id : String
  body : OperatorBody
  /-- Decides between operators that are ready at the same time. -/
  sortKey : String
  /-- The ids it waits on. -/
  predecessors : List String
  triggerRule : TriggerRule
deriving DecidableEq, Repr

namespace Operator

/-- The task of an operator, if it stands for one. -/
def task? (o : Operator) : Option Task :=
  match o.body with
  | .task task => some task
  | _ => none

/-- The decision of an operator, if it stands for one. -/
def decision? (o : Operator) : Option String :=
  match o.body with
  | .branch record _ => some record.decision
  | _ => none

end Operator

/-- The first free name from the `n`-th on: a name is numbered until it is not taken. -/
def numberedName (taken : List String) (base : String) : Nat → Nat → String
  | 0, n => base ++ "_" ++ Text.decimal n
  | steps + 1, n =>
    let name := base ++ "_" ++ Text.decimal n
    if taken.contains name then numberedName taken base steps (n + 1) else name

/-- A name that is not taken: the base itself, or else the base with the least number from two on.
-/
def freeName (taken : List String) (base : String) : String :=
  if taken.contains base then numberedName taken base taken.length 2 else base

end WorkflowDag
