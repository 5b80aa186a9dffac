import WorkflowDag.Journal.Event
import WorkflowDag.Task.Resolution
import WorkflowDag.Workflow.Basic

/-!
# The walk that makes tasks

A walk follows the transitions of a workflow from its start.  A task is made when its node is
reached for the first time; later visits add dependencies only.  Every branch of a decision is
followed, and what comes through it remembers the branch.  Forks and joins are transparent: what the
paths of a fork bring to its join goes on behind the join.
-/

namespace WorkflowDag

/-- What a transformation is told besides the workflow. -/
structure TaskOptions where
  configuration : Record := .empty
  unresolved : Unresolved := .error
  /-- Evaluate every guard of a decision and refuse several that hold. -/
  strictDecisions : Bool := false
deriving Repr

namespace Walk

/-- A task without its dependencies. -/
inductive Owner where
  | action (a : Action)
  | kill (name message : String)

/-- The node that owns a task. -/
def Owner.name : Owner → String
  | action a => a.name
  | kill name _ => name

/-- What the walk has found so far. -/
structure State where
  tasks : List Task := []
  /-- Actions whose transitions have been followed. -/
  followed : List String := []
  decisions : List ResolvedDecision := []
  /-- What has come to each join whose fork is being walked, the innermost fork first. -/
  gathered : List (String × List Dependency) := []

/-- Labels an evaluation error with the node it occurred in. -/
def atNode {α : Type} (node : String) (result : Except EvalError α) : Except Error α :=
  result.mapError fun cause => (Error.evaluation cause none).atNode node

/-- What the task of a node does. -/
def bodyOf (scope : Scope) : Owner → Except Error TaskBody
  | .action a => (atNode a.name (resolveDetails (Template.interpolate scope) a)).map
      (.action a.actionType)
  | .kill name message => (atNode name (Template.interpolate scope message)).map .kill

/-- The state with a task for the node, which is made when there is none yet. -/
def State.withTask (s : State) (scope : Scope) (owner : Owner) : Except Error State :=
  let id := Task.idOf owner.name
  match s.tasks.find? fun task => task.id == id with
  | some task =>
    if task.source == owner.name then .ok s
    else .error (.task owner.name (.idTaken id task.source))
  | none => do
    let body ← bodyOf scope owner
    pure { s with tasks := s.tasks ++ [{ id, source := owner.name, body }] }

/-- Control from the start that has passed no branch leaves no trace. -/
def isBare (d : Dependency) : Bool :=
  d.origin.isNone && d.branches.isEmpty

/-- Adds a dependency unless one with the same key is there. -/
def addDependency (dependencies : List Dependency) (d : Dependency) : List Dependency :=
  if isBare d || dependencies.any fun other => other.key == d.key then dependencies
  else dependencies ++ [d]

/-- A task with further dependencies. -/
def addDependencies (incoming : List Dependency) (task : Task) : Task :=
  let dependencies := incoming.foldl addDependency task.dependencies
  { task with dependencies, triggerRule := .ofDependencies dependencies }

/-- Adds dependencies to the task of an id. -/
def State.addDependencies (s : State) (id : String) (incoming : List Dependency) : State :=
  { s with tasks := s.tasks.map fun task =>
      if task.id == id then Walk.addDependencies incoming task else task }

/-- What comes through a branch; a join crossed before it becomes part of the branch. -/
def passing (step : PassedBranch) (d : Dependency) : Dependency :=
  { d with
    branches := d.branches ++ [match d.join with
      | some join => { step with join := some join }
      | none => step]
    join := none }

/-- The record of a decision once its guards have been evaluated. -/
def recordOf (d : Decision) (selection : GuardChoice) : ResolvedDecision :=
  let chosen := selection.index.bind fun index => d.cases[index]?
  { decision := d.name
    cases := d.cases.mapIdx fun position c => ⟨c.guard, c.target, selection.values[position]?⟩
    fallback := d.fallback
    selected := (chosen.map GuardedCase.target).getD d.fallback
    takenCase := if chosen.isSome then selection.index else none }

/-- Evaluates the guards of a decision. -/
def resolveDecision (options : TaskOptions) (scope : Scope) (d : Decision) :
    Except Error ResolvedDecision :=
  match chooseGuard scope options.strictDecisions (d.cases.map GuardedCase.guard) with
  | .error cause => .error (.task d.name (.guardFailed cause))
  | .ok selection =>
    let count := (selection.values.filter holds).length
    if options.strictDecisions ∧ 1 < count then .error (.task d.name (.severalGuards count))
    else .ok (recordOf d selection)

/-- Records the selection at a decision, once for each decision. -/
def State.resolve (s : State) (options : TaskOptions) (scope : Scope) (d : Decision) :
    Traced State :=
  if s.decisions.any fun record => record.decision == d.name then pure s
  else do
    let record ← Traced.ofExcept (resolveDecision options scope d)
    Traced.tell (.decisionMade d.name record.selected record.takenCase)
    pure { s with decisions := s.decisions ++ [record] }

/-- The branches of a decision: the steps through them and the nodes they lead to. -/
def branchesOf (d : Decision) : List (PassedBranch × String) :=
  d.cases.mapIdx (fun index c => (⟨d.name, some index, some c.guard, none⟩, c.target)) ++
    [(⟨d.name, none, none, none⟩, d.fallback)]

/-- Gathers what comes to a join, while a fork that it closes is being walked. -/
def gather (join : String) (incoming : List Dependency) :
    List (String × List Dependency) → Option (List (String × List Dependency))
  | [] => none
  | (name, edges) :: rest =>
    if name == join then some ((name, edges ++ incoming) :: rest)
    else (gather join incoming rest).map ((name, edges) :: ·)

/-- What the innermost fork of a join has gathered, and the state without it. -/
def State.release (s : State) (join : String) : List Dependency × State :=
  match s.gathered with
  | (name, edges) :: rest => if name == join then (edges, { s with gathered := rest }) else ([], s)
  | [] => ([], s)

/-- Fails when the node lies on the path that leads to it. -/
def stepOnto (path : List String) (name : String) : Except Error Unit :=
  if path.contains name then .error (.cycle name path) else .ok ()

/-- Walks on from a node into which `incoming` leads.  `path` leads from the start to the node and
holds no name twice, so more steps than there are nodes are never needed. -/
def walk (w : Workflow) (options : TaskOptions) (scope : Scope) :
    Nat → List String → String → List Dependency → State → Traced State
  | 0, path, name, _, _ => Traced.ofExcept (.error (.cycle name path))
  | steps + 1, path, name, incoming, s =>
    match Workflow.find? w.nodes name with
    | none => Traced.ofExcept (.error (.task name (.noTransition name)))
    | some node =>
      match node with
      | .finish _ => pure s
      | .kill name message => do
        let s1 ← Traced.ofExcept (s.withTask scope (.kill name message))
        pure (s1.addDependencies (Task.idOf name) incoming)
      | .start target => do
        Traced.ofExcept (stepOnto path name)
        walk w options scope steps (path ++ [name]) target incoming s
      | .action a => do
        Traced.ofExcept (stepOnto path name)
        let s1 ← Traced.ofExcept (s.withTask scope (.action a))
        let id := Task.idOf name
        let s2 := s1.addDependencies id incoming
        if s2.followed.contains name then pure s2
        else
          let s3 := { s2 with followed := name :: s2.followed }
          let s4 ←
            walk w options scope steps (path ++ [name]) a.ok [⟨some id, .success, [], none⟩] s3
          walk w options scope steps (path ++ [name]) a.error [⟨some id, .failure, [], none⟩] s4
      | .decision d => do
        Traced.ofExcept (stepOnto path name)
        let s1 ← s.resolve options scope d
        (branchesOf d).foldlM (fun acc branch =>
          walk w options scope steps (path ++ [name]) branch.2
            (incoming.map (passing branch.1)) acc) s1
      | .fork f =>
        match Workflow.closing? w.closingJoins name with
        | none => Traced.ofExcept (.error (.task name .noClosingJoin))
        | some join =>
          match Workflow.find? w.nodes join with
          | some (.join _ behind) => do
            Traced.ofExcept (stepOnto path name)
            let s1 := { s with gathered := (join, []) :: s.gathered }
            let s2 ← f.paths.foldlM (fun acc target =>
              walk w options scope steps (path ++ [name]) target incoming acc) s1
            let (edges, s3) := s2.release join
            walk w options scope steps (path ++ [name]) behind
              (edges.map fun d => { d with join := some join }) s3
          | _ => Traced.ofExcept (.error (.task name .noClosingJoin))
      | .join _ _ =>
        match gather name incoming s.gathered with
        | some gathered => pure { s with gathered }
        | none => Traced.ofExcept (.error (.task name .outsideFork))

end Walk

namespace TaskGraph

/-- The tasks of a workflow. -/
def ofWorkflow (w : Workflow) (options : TaskOptions) : Traced TaskGraph := do
  let configuration := w.defaults.merge options.configuration
  let scope : Scope :=
    { definitions := configuration, workflowName := some w.name, unresolved := options.unresolved }
  let s ← Walk.walk w options scope (w.nodes.length + 1) [] Node.startName
    [⟨none, .success, [], none⟩] {}
  Traced.tell (.workflowTransformed w.name s.tasks.length s.decisions.length)
  pure { workflow := w.name, tasks := s.tasks, decisions := s.decisions, configuration }

end TaskGraph
end WorkflowDag
