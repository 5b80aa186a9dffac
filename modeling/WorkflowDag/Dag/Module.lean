import WorkflowDag.Dag.Layout
import WorkflowDag.Dag.Name
import WorkflowDag.Journal.Event
import WorkflowDag.Number.Shortest

/-!
# DAG modules

The Python module that defines a DAG: its imports, its parameters, the DAG itself with its operators
in layout order, and the relations between them.
-/

namespace WorkflowDag

/-- What a module is told besides the tasks. -/
structure ModuleOptions where
  dagName : String := "dag"
  /-- How many days before today the DAG starts. -/
  startDaysAgo : Number := .zero
  /-- Days between runs; without a positive number the DAG is not scheduled. -/
  scheduleIntervalDays : Number := .zero
  target : Target := {}
deriving Repr

namespace DagModule

/-- Lines behind one step of indentation. -/
def indented (lines : List String) : List String :=
  lines.map (Literal.indentation ++ ·)

/-- The comment line of a case. -/
def caseComment (c : CaseRecord) : String :=
  let value := match c.value with
    | some value => Literal.quote value
    | none => "not evaluated"
  "#   case " ++ Text.singleLine c.guard ++ " -> " ++ Text.singleLine c.target ++ ": " ++ value

/-- The comment lines of a decision. -/
def decisionComment (r : ResolvedDecision) : List String :=
  ("# Decision \"" ++ Text.singleLine r.decision ++ "\" selected \"" ++
      Text.singleLine r.selected ++ "\".") ::
    r.cases.map caseComment ++ ["#   default -> " ++ Text.singleLine r.fallback]

/-- The comment in front of an operator; only decisions have one. -/
def operatorComment (o : Operator) : String :=
  match o.body with
  | .branch record _ =>
    String.join ((indented (decisionComment record)).map fun line => line ++ "\n")
  | _ => ""

/-- The definition of an operator. -/
def operatorText (names : List (String × String)) (o : Operator) (call : Call) : String :=
  let full : Call :=
    { call with
      arguments := ("task_id", Literal.quote o.id) :: call.arguments ++
        [("trigger_rule", Literal.quote o.triggerRule.name)] }
  operatorComment o ++ Literal.indentation ++ variableOf names o.id ++ " = " ++
    full.write Literal.indentation

/-- What is told once an operator has been rendered. -/
def operatorEvents (o : Operator) : List Event :=
  match o.body with
  | .task t => [.taskRendered t.source t.body.template]
  | _ => []

/-- The definitions of operators, in order. -/
def operatorTexts (names : List (String × String)) (target : Target) :
    List Operator → Traced (List String)
  | [] => pure []
  | o :: rest => do
    let call ← Traced.ofExcept (Rendering.operator o target)
    (operatorEvents o).forM Traced.tell
    let texts ← operatorTexts names target rest
    pure (operatorText names o call :: texts)

/-- The pairs of operators of which the second waits on the first, by the places of both. -/
def relations (order : List Operator) : List (Operator × Operator) :=
  order.flatMap fun first =>
    (order.filter fun second => second.predecessors.contains first.id).map
      fun second => (first, second)

/-- The line of a relation. -/
def relationLine (names : List (String × String)) (pair : Operator × Operator) : String :=
  variableOf names pair.1.id ++ " >> " ++ variableOf names pair.2.id

/-- The head of the DAG. -/
def dagHead (options : ModuleOptions) : String :=
  let schedule :=
    if options.scheduleIntervalDays.isPositive then
      "datetime.timedelta(days=" ++ options.scheduleIntervalDays.text ++ ")"
    else "None"
  let call : Call :=
    ⟨"with models.DAG",
      [("dag_id", Literal.quote options.dagName), ("schedule_interval", schedule),
        ("start_date", "dates.days_ago(" ++ options.startDaysAgo.text ++ ")"),
        ("params", "PARAMS")]⟩
  call.write "" ++ " as dag:"

/-- The decisions for which there is no operator. -/
def remainingDecisions (g : TaskGraph) (order : List Operator) : List ResolvedDecision :=
  let laidOut := order.filterMap Operator.decision?
  g.decisions.filter fun record => !laidOut.contains record.decision

/-- The sections of a module. -/
def sections (g : TaskGraph) (options : ModuleOptions) (order : List Operator)
    (imported : List Import) (names : List (String × String)) (operators : List String) :
    List String :=
  let relationLines := (relations order).map (relationLine names)
  ["# DAG generated from workflow " ++ Literal.quote g.workflow ++ ".",
    Text.joinWith "\n" (imported.map Import.line),
    "PARAMS = " ++ Literal.dict "" g.configuration,
    dagHead options] ++
  operators ++
  (remainingDecisions g order).map (fun record =>
    Text.joinWith "\n" (indented (decisionComment record))) ++
  (if relationLines.isEmpty then [] else [Text.joinWith "\n" (indented relationLines)]) ++
  (if order.isEmpty then [Literal.indentation ++ "pass"] else [])

end DagModule

/-- The module that defines the DAG of a task graph. -/
def TaskGraph.emit (g : TaskGraph) (options : ModuleOptions) : Traced String := do
  let order ← Traced.ofExcept g.layout
  let imported := DagModule.imports order options.scheduleIntervalDays.isPositive
  let names := DagModule.operatorNames order imported
  let operators ← DagModule.operatorTexts names options.target order
  Traced.tell (.dagRendered options.dagName order.length (DagModule.relations order).length)
  pure (Text.joinWith "\n\n" (DagModule.sections g options order imported names operators) ++ "\n")

end WorkflowDag
