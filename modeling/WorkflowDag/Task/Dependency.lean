import WorkflowDag.Text.Cut

/-!
# Dependencies between tasks

A dependency says how control comes to a task: from the outcome of another task or from the start of
the workflow, through branches of decisions, gathered at joins.  `key` tells dependencies apart.
-/

namespace WorkflowDag

/-- The two outcomes of a task. -/
inductive Outcome where
  | success
  | failure
deriving DecidableEq, Repr

namespace Outcome

/-- The word for an outcome. -/
def word : Outcome → String
  | success => "success"
  | failure => "failure"

end Outcome

/-- One branch of a decision on the way to a task. -/
structure PassedBranch where
  decision : String
  /-- Position of the case, none for the default branch. -/
  caseIndex : Option Nat
  /-- The guard as written, none for the default branch. -/
  guard : Option String
  /-- The join at which control was gathered since the branch before. -/
  join : Option String := none
deriving DecidableEq, Repr

/-- One way in which control comes to a task. -/
structure Dependency where
  /-- The task it comes from; none for the start of the workflow. -/
  origin : Option String
  outcome : Outcome
  /-- The branches passed, in order. -/
  branches : List PassedBranch := []
  /-- The join at which control was gathered since the last branch. -/
  join : Option String := none
deriving DecidableEq, Repr

/-- The text of a branch position. -/
def caseText : Option Nat → String
  | some index => Text.decimal index
  | none => "default"

/-- The word for what a dependency waits on. -/
def Dependency.kind (d : Dependency) : String :=
  if d.branches.isEmpty then d.outcome.word else "conditional"

/-- The text that tells a branch from others on the same way. -/
def PassedBranch.key (s : PassedBranch) : String :=
  s.join.getD "" ++ ">" ++ s.decision ++ "#" ++ caseText s.caseIndex

/-- The text that tells a dependency of a task from its others. -/
def Dependency.key (d : Dependency) : String :=
  Text.joinWith "|"
    [d.origin.getD "", d.outcome.word, Text.joinWith "/" (d.branches.map PassedBranch.key),
      d.join.getD ""]

end WorkflowDag
