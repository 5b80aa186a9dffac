import WorkflowDag.Dag.Operator
import WorkflowDag.Error

/-!
# Wiring

The operators that a task graph needs and what each of them waits on.  Every decision that a
dependency passes becomes a branch operator with one dummy for each of its branches, so the tasks
behind any branch wait on the dummy of their branch.  A failure that is one of several ways into an
operator goes through a gate of its own, and so does a join.
-/

namespace WorkflowDag

namespace Dependency

/-- The decisions on a way, each with the signal before it; the start gives no signal. -/
def passagesFrom : Option Signal → List PassedBranch → List (String × Option JoinedSignal)
  | _, [] => []
  | before, step :: rest =>
    (step.decision, before.map fun signal => ⟨signal, step.join⟩) ::
      passagesFrom (some (.branch step)) rest

/-- The decisions a dependency passes, each with the signal that leads into it. -/
def passages (d : Dependency) : List (String × Option JoinedSignal) :=
  passagesFrom d.originSignal? d.branches

end Dependency

namespace TaskGraph

/-- The decisions that the dependencies of a graph pass, each with the signal that leads into it. -/
def passages (g : TaskGraph) : List (String × Option JoinedSignal) :=
  g.tasks.flatMap fun task => task.dependencies.flatMap Dependency.passages

/-- The decisions that the dependencies of a graph pass, in the order in which they are met. -/
def passedDecisions (g : TaskGraph) : List String :=
  (g.passages.map Prod.fst).eraseDups

/-- The signals that lead into a decision. -/
def signalsInto (g : TaskGraph) (decision : String) : List JoinedSignal :=
  g.passages.filterMap fun passage => if passage.1 == decision then passage.2 else none

/-- The recorded selection at a decision; the last record counts. -/
def recordOf? (g : TaskGraph) (decision : String) : Option ResolvedDecision :=
  g.decisions.reverse.find? fun record => record.decision == decision

end TaskGraph

namespace Wiring

/-- The ids given to a decision: of its branch operator and of the dummies of its branches. -/
structure BranchPlan where
  record : ResolvedDecision
  id : String
  cases : List String
  fallback : String
deriving Repr

namespace BranchPlan

/-- The dummies of a decision. -/
def dummies (p : BranchPlan) : List String :=
  p.cases ++ [p.fallback]

/-- The dummy of the selected branch. -/
def chosen (p : BranchPlan) : String :=
  match p.record.takenCase with
  | none => p.fallback
  | some index => p.dummies[index]?.getD p.id

/-- The dummy of a branch. -/
def branch? (p : BranchPlan) : Option Nat → Option String
  | none => some p.fallback
  | some index => p.cases[index]?

end BranchPlan

/-- Gives ids to the dummies of the cases from position `n` on. -/
def planCases (id : String) : List String → Nat → List CaseRecord → List String × List String
  | taken, _, [] => ([], taken)
  | taken, n, _ :: rest =>
    let name := freeName taken (id ++ "_case_" ++ Text.decimal (n + 1))
    let (names, taken') := planCases id (name :: taken) (n + 1) rest
    (name :: names, taken')

/-- Gives ids to a decision. -/
def planBranch (taken : List String) (record : ResolvedDecision) : BranchPlan × List String :=
  let id := freeName taken (Task.idOf record.decision)
  let (cases, taken') := planCases id (id :: taken) 0 record.cases
  let fallback := freeName taken' (id ++ "_default")
  (⟨record, id, cases, fallback⟩, fallback :: taken')

/-- Gives ids to the decisions of a list. -/
def planBranches (g : TaskGraph) :
    List String → List String → Except Error (List BranchPlan × List String)
  | taken, [] => .ok ([], taken)
  | taken, decision :: rest =>
    match g.recordOf? decision with
    | none => .error (.task decision .noSelection)
    | some record => do
      let (plan, taken') := planBranch taken record
      let (plans, taken'') ← planBranches g taken' rest
      pure (plan :: plans, taken'')

/-- What wiring has made so far: the ids in use, operators in the order in which they are made, and
the gates by what they wait for. -/
structure Draft where
  taken : List String
  operators : List Operator := []
  gates : List (String × String) := []
deriving Repr

/-- The gate of a key.  An empty id does not count as one. -/
def Draft.gate? (d : Draft) (key : String) : Option String :=
  ((d.gates.find? fun gate => gate.1 == key).map Prod.snd).filter fun id => id ≠ ""

/-- The draft with one more gate. -/
def Draft.addGate (d : Draft) (key base : String) (predecessors : List String)
    (rule : TriggerRule) : Draft :=
  let id := freeName d.taken base
  { taken := id :: d.taken
    operators := d.operators ++ [⟨id, .dummy, id, predecessors, rule⟩]
    gates := (key, id) :: d.gates }

/-- The gate of a key, made when there is none yet. -/
def Draft.gate (d : Draft) (key base : String) (predecessors : List String) (rule : TriggerRule) :
    String × Draft :=
  match d.gate? key with
  | some id => (id, d)
  | none => (freeName d.taken base, d.addGate key base predecessors rule)

/-- The key of the gate of a failure. -/
def failureKey (task : String) : String :=
  "failed:" ++ task

/-- The key of the gate of a join: the join and the signals gathered there. -/
def joinKey (join : String) (signals : List Signal) : String :=
  "join:" ++ join ++ "|" ++ Text.joinWith "," (signals.map Signal.key)

/-- The operator that a signal comes from. -/
def sender (plans : List BranchPlan) : Signal → Except Error String
  | .success task => .ok task
  | .failure task => .ok task
  | .branch step =>
    match (plans.find? fun plan => plan.record.decision == step.decision).bind
        (·.branch? step.caseIndex) with
    | some id => .ok id
    | none => .error (.task step.decision .noBranchTask)

/-- The operators that signals come from. -/
def senders (plans : List BranchPlan) : List Signal → Except Error (List String)
  | [] => .ok []
  | signal :: rest => do
    let id ← sender plans signal
    let ids ← senders plans rest
    pure (id :: ids)

/-- An operator that succeeds exactly when the signal comes. -/
def relay (plans : List BranchPlan) (d : Draft) (signal : Signal) :
    Except Error (String × Draft) :=
  match signal with
  | .failure task => .ok (d.gate (failureKey task) (task ++ "_failed") [task] .oneFailed)
  | _ => (sender plans signal).map fun id => (id, d)

/-- Operators that succeed exactly when the signals come. -/
def relays (plans : List BranchPlan) : Draft → List Signal → Except Error (List String × Draft)
  | d, [] => .ok ([], d)
  | d, signal :: rest => do
    let (id, d1) ← relay plans d signal
    let (ids, d2) ← relays plans d1 rest
    pure (id :: ids, d2)

/-- The gate behind which the signals of a join are gathered. -/
def gateOfJoin (plans : List BranchPlan) (d : Draft) (arrival : Arrival) :
    Except Error (String × Draft) := do
  let join := arrival.join.getD "join"
  let (ids, d1) ← relays plans d arrival.signals
  pure (d1.gate (joinKey join arrival.signals) (Task.idOf join) ids.eraseDups
    .noneFailedMinOneSuccess)

/-- An operator that succeeds exactly when control arrives in one of several ways. -/
def entrance (plans : List BranchPlan) (d : Draft) (arrival : Arrival) :
    Except Error (String × Draft) :=
  match arrival.signals with
  | [signal] => relay plans d signal
  | _ => gateOfJoin plans d arrival

/-- Operators that succeed exactly when control arrives in each of several ways. -/
def entrances (plans : List BranchPlan) :
    Draft → List Arrival → Except Error (List String × Draft)
  | d, [] => .ok ([], d)
  | d, arrival :: rest => do
    let (id, d1) ← entrance plans d arrival
    let (ids, d2) ← entrances plans d1 rest
    pure (id :: ids, d2)

/-- What an operator with the given arrivals waits on. -/
def predecessorsOf (plans : List BranchPlan) (d : Draft) (found : List Arrival) :
    Except Error (List String × Draft) :=
  if TriggerRule.ofArrivals found = .oneFailed then
    (senders plans (found.flatMap Arrival.signals)).map fun ids => (ids.eraseDups, d)
  else
    match found with
    | [only] => (relays plans d only.signals).map fun (ids, d') => (ids.eraseDups, d')
    | _ => (entrances plans d found).map fun (ids, d') => (ids.eraseDups, d')

/-- The operators of a decision. -/
def BranchPlan.operators (p : BranchPlan) (predecessors : List String) (rule : TriggerRule) :
    List Operator :=
  ⟨p.id, .branch p.record p.chosen, p.record.decision, predecessors, rule⟩ ::
    p.dummies.map fun id => ⟨id, .dummy, id, [p.id], .allSuccess⟩

/-- Wires decisions: their operators, and the gates made for them in the draft. -/
def wireBranches (g : TaskGraph) (plans : List BranchPlan) :
    Draft → List BranchPlan → Except Error (List Operator × Draft)
  | d, [] => .ok ([], d)
  | d, plan :: rest => do
    let found := Arrival.group (g.signalsInto plan.record.decision)
    let (predecessors, d1) ← predecessorsOf plans d found
    let (others, d2) ← wireBranches g plans d1 rest
    pure (plan.operators predecessors (.ofArrivals found) ++ others, d2)

/-- Wires tasks: the draft then holds their operators, each behind the gates made for it. -/
def wireTasks (plans : List BranchPlan) : Draft → List Task → Except Error Draft
  | d, [] => .ok d
  | d, task :: rest => do
    let found := arrivals task.dependencies
    let (predecessors, d1) ← predecessorsOf plans d found
    let operator := ⟨task.id, .task task, task.source, predecessors, .ofArrivals found⟩
    wireTasks plans { d1 with operators := d1.operators ++ [operator] } rest

end Wiring

/-- The operators of a task graph in the order in which they are made: those of decisions, then
gates and tasks. -/
def TaskGraph.operators (g : TaskGraph) : Except Error (List Operator) := do
  let (plans, taken) ← Wiring.planBranches g (g.tasks.map Task.id) g.passedDecisions
  let (branches, d) ← Wiring.wireBranches g plans { taken } plans
  let d' ← Wiring.wireTasks plans d g.tasks
  pure (branches ++ d'.operators)

end WorkflowDag
