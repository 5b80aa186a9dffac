import WorkflowDag.Markup.Element
import WorkflowDag.Task.Arrival
import WorkflowDag.Workflow.Node

/-!
# Tasks

The tasks of a DAG and the selections made at decisions.
-/

namespace WorkflowDag

/-- What an action runs, all expressions evaluated. -/
structure ActionDetails where
  prepare : List Preparation := []
  configuration : Record := .empty
  files : List String := []
  archives : List String := []
  payload : List Element := []
deriving DecidableEq, Repr

/-- What a task does: it runs an action of some type, or ends the run with a message. -/
inductive TaskBody where
  | action (template : String) (params : ActionDetails)
  | kill (message : String)
deriving DecidableEq, Repr

namespace TaskBody

/-- The name of the template that renders a task. -/
def template : TaskBody → String
  | action template _ => template
  | kill _ => "kill"

/-- The task ends the run. -/
def isKill : TaskBody → Bool
  | kill _ => true
  | action _ _ => false

end TaskBody

/-- A task. -/
structure Task where
  id : String
  /-- The node it stands for. -/
  source : String
  body : TaskBody
  dependencies : List Dependency := []
  triggerRule : TriggerRule := .ofDependencies dependencies
deriving DecidableEq, Repr

/-- A case of a decision with the value of its guard, none when it was not evaluated. -/
structure CaseRecord where
  guard : String
  target : String
  value : Option String
deriving DecidableEq, Repr

/-- Which branch of a decision the configuration selects. -/
structure ResolvedDecision where
  decision : String
  cases : List CaseRecord
  fallback : String
  selected : String
  /-- Position of the selected case, none when the default branch is taken. -/
  takenCase : Option Nat
deriving DecidableEq, Repr

/-- The tasks of a workflow, the selections at its decisions and the configuration in force. -/
structure TaskGraph where
  workflow : String
  tasks : List Task := []
  decisions : List ResolvedDecision := []
  configuration : Record := .empty
deriving DecidableEq, Repr

namespace Task

/-- A unit that may stand in a task id. -/
def isIdUnit (c : Char) : Bool :=
  c.isAlphanum || c == '_'

/-- The task id of a node: an identifier made of its name. -/
def idOf (name : String) : String :=
  let units := name.toList.map fun c => if isIdUnit c then c else '_'
  match units with
  | c :: _ => if c.isDigit then String.ofList ('_' :: units) else String.ofList units
  | [] => ""

end Task
end WorkflowDag
