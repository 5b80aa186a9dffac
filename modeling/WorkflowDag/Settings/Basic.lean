import WorkflowDag.Dag.Rendering
import WorkflowDag.Expression.Evaluation
import WorkflowDag.Number.Basic

/-!
# Settings

The settings of a project, and the choices on a command line that take precedence over them.
-/

namespace WorkflowDag

/-- The settings of a project. -/
structure Settings where
  /-- The name of the DAG; without it the input directory gives the name. -/
  dagName : Option String := none
  /-- The user under whose name a conversion runs. -/
  user : Option String := none
  startDaysAgo : Number := .zero
  scheduleIntervalDays : Number := .zero
  target : Target := {}
  unresolved : Unresolved := .error
  strictDecisions : Bool := false
  /-- Patterns of assets that are not copied. -/
  exclude : List String := []
  /-- Entries that go over those of the property files. -/
  properties : Record := .empty
deriving Repr

/-- Choices that take precedence over the settings. -/
structure Choices where
  dagName : Option String := none
  user : Option String := none
  startDaysAgo : Option Number := none
  scheduleIntervalDays : Option Number := none
  deferUnresolved : Bool := false
  strictDecisions : Bool := false
deriving Repr

/-- The settings with choices made. -/
def Settings.choose (s : Settings) (c : Choices) : Settings :=
  { s with
    dagName := c.dagName <|> s.dagName
    user := c.user <|> s.user
    startDaysAgo := c.startDaysAgo.getD s.startDaysAgo
    scheduleIntervalDays := c.scheduleIntervalDays.getD s.scheduleIntervalDays
    unresolved := if c.deferUnresolved then .defer else s.unresolved
    strictDecisions := c.strictDecisions || s.strictDecisions }

end WorkflowDag
