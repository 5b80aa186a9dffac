import WorkflowDag.Dag.Wiring
import WorkflowDag.Text.Units

/-!
# Layout

The order in which a module defines the operators of a DAG: each one stands behind all that it waits
on.  Of the operators that are ready, the one that waits on the fewest goes first, then the one
whose sort key comes first, then the one that was made first.
-/

namespace WorkflowDag

namespace Layout

/-- Everything the operator waits on has been placed. -/
def isReady (placed : List String) (o : Operator) : Bool :=
  o.predecessors.all placed.contains

/-- The operator goes before another that is ready too. -/
def goesBefore (a b : Operator) : Bool :=
  a.predecessors.length < b.predecessors.length ||
    (a.predecessors.length == b.predecessors.length && Text.before a.sortKey b.sortKey)

/-- The operator that goes first; the earliest in the list wins a tie. -/
def first? : List Operator → Option Operator
  | [] => none
  | o :: rest =>
    some (rest.foldl (fun best other => if goesBefore other best then other else best) o)

/-- Places the remaining operators behind those placed.  Each step places one. -/
def place : Nat → List String → List Operator → Except Error (List Operator)
  | _, _, [] => .ok []
  | 0, _, o :: _ => .error (.task o.id .neverReady)
  | steps + 1, placed, o :: rest =>
    match first? ((o :: rest).filter (isReady placed)) with
    | none => .error (.task o.id .neverReady)
    | some next => do
      let others ← place steps (next.id :: placed)
        ((o :: rest).filter fun other => other.id != next.id)
      pure (next :: others)

/-- Orders operators so that each stands behind all that it waits on. -/
def order (operators : List Operator) : Except Error (List Operator) :=
  place operators.length [] operators

end Layout

/-- The operators of a task graph in the order in which a module defines them. -/
def TaskGraph.layout (g : TaskGraph) : Except Error (List Operator) := do
  let operators ← g.operators
  Layout.order operators

/-- The tasks of a graph in the order in which a module defines them. -/
def TaskGraph.orderedTasks (g : TaskGraph) : Except Error (List Task) :=
  g.layout.map fun operators => operators.filterMap Operator.task?

end WorkflowDag
