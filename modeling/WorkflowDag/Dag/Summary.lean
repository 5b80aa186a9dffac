import WorkflowDag.Dag.Layout

/-!
# Summaries

Short lines that tell what a DAG consists of.
-/

namespace WorkflowDag
namespace Summary

/-- How many tasks, decisions and assets there are. -/
def overview (g : TaskGraph) (assets : Nat) : List String :=
  ["tasks=" ++ Text.decimal g.tasks.length,
    "kill_tasks=" ++ Text.decimal (g.tasks.filter fun t => t.body.isKill).length,
    "decisions=" ++ Text.decimal g.decisions.length,
    "assets=" ++ Text.decimal assets]

/-- The tasks that a task comes from. -/
def origins (t : Task) : List String :=
  ((t.dependencies.filterMap Dependency.origin).filter fun id => id ≠ "").eraseDups

/-- The line of a task. -/
def taskLine (t : Task) : String :=
  t.id ++ ": " ++ t.body.template ++ " [" ++ t.triggerRule.name ++ "]" ++
    if (origins t).isEmpty then "" else " <- " ++ Text.joinWith ", " (origins t)

/-- The lines of tasks. -/
def taskLines (tasks : List Task) : List String :=
  if tasks.isEmpty then ["No tasks"] else tasks.map taskLine

/-- The line of a decision. -/
def decisionLine (r : ResolvedDecision) : String :=
  let place := match r.takenCase with
    | none => "(default)"
    | some index =>
      "(case " ++ Text.decimal (index + 1) ++ " of " ++ Text.decimal r.cases.length ++ ")"
  r.decision ++ ": " ++ r.selected ++ " " ++ place

/-- The lines of decisions. -/
def decisionLines (decisions : List ResolvedDecision) : List String :=
  if decisions.isEmpty then ["No decisions"] else decisions.map decisionLine

end Summary

/-- The lines that sum up a task graph. -/
def TaskGraph.summary (g : TaskGraph) (assets : Nat) : Except Error (List String) := do
  let tasks ← g.orderedTasks
  pure (Summary.overview g assets ++ Summary.taskLines tasks ++ Summary.decisionLines g.decisions)

end WorkflowDag
