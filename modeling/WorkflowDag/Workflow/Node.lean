import WorkflowDag.Error
import WorkflowDag.Markup.Element
import WorkflowDag.Text.Blank

/-!
# Nodes

The nodes of a workflow and the transitions between them.  Texts are kept as they are written;
expressions in them are evaluated later.
-/

namespace WorkflowDag

/-- The two operations of a prepare step. -/
inductive PreparationKind where
  | mkdir
  | delete
deriving DecidableEq, Repr

/-- A step that runs before an action. -/
structure Preparation where
  op : PreparationKind
  path : String
deriving DecidableEq, Repr

/-- A branch of a decision that is taken when its guard holds. -/
structure GuardedCase where
  guard : String
  target : String
deriving DecidableEq, Repr

/-- An action: what it runs and where it leads on success and on failure. -/
structure Action where
  name : String
  actionType : String
  prepare : List Preparation := []
  configuration : Record := .empty
  files : List String := []
  archives : List String := []
  payload : List Element := []
  ok : String
  error : String
deriving DecidableEq, Repr

/-- A decision: its guarded branches and the one taken when no guard holds. -/
structure Decision where
  name : String
  cases : List GuardedCase
  fallback : String
deriving DecidableEq, Repr

/-- A fork: the nodes its paths start at and the join it names itself, if any. -/
structure Fork where
  name : String
  paths : List String
  declaredJoin : Option String
deriving DecidableEq, Repr

/-- A node of a workflow. -/
inductive Node where
  | start (target : String)
  | action (a : Action)
  | decision (d : Decision)
  | fork (f : Fork)
  | join (name target : String)
  | kill (name message : String)
  | finish (name : String)
deriving DecidableEq, Repr

/-- The kinds of transition. -/
inductive TransitionKind where
  | next
  | ok
  | error
  | case
  | fallback
  | path
deriving DecidableEq, Repr

/-- A transition out of a node; a guard belongs to the branch of a decision. -/
structure Transition where
  kind : TransitionKind
  target : String
  guard : Option String := none
deriving DecidableEq, Repr

namespace Node

/-- The name under which the start of a workflow is known. -/
def startName : String := "start"

/-- The name of a node. -/
def name : Node → String
  | start _ => startName
  | action a => a.name
  | decision d => d.name
  | fork f => f.name
  | join name _ => name
  | kill name _ => name
  | finish name => name

/-- The kind of a node. -/
def kind : Node → NodeKind
  | start _ => .start
  | action _ => .action
  | decision _ => .decision
  | fork _ => .fork
  | join _ _ => .join
  | kill _ _ => .kill
  | finish _ => .finish

/-- The transitions out of a node, in the order in which it declares them. -/
def transitions : Node → List Transition
  | start target => [⟨.next, target, none⟩]
  | join _ target => [⟨.next, target, none⟩]
  | action a => [⟨.ok, a.ok, none⟩, ⟨.error, a.error, none⟩]
  | decision d =>
    d.cases.map (fun c => ⟨.case, c.target, some c.guard⟩) ++ [⟨.fallback, d.fallback, none⟩]
  | fork f => f.paths.map fun path => ⟨.path, path, none⟩
  | kill _ _ => []
  | finish _ => []

/-- The configuration of a node; only actions have one. -/
def configuration : Node → Record
  | action a => a.configuration
  | _ => .empty

end Node
end WorkflowDag
