import WorkflowDag.Proofs.FailureFreeRun

/-!
# Runs with failures

An execution of a layout gives a state to each operator: what runs succeeds or fails, and what does
not run is skipped or gives up behind a failure (`Operator.stateAfter`).  In the workflow, control
goes on from an action as its outcome says (`Passes`).

An operator that waits for failures takes one that has given up for one that has failed, so the
layout can run what control does not reach.  Main statement: this happens behind the error
transitions of actions that have given up, and nowhere else
(`run_reached_or_after_upstream_failure`).  It does happen: `cascade_runs_unreached_kill`.
-/

namespace WorkflowDag

/-- What becomes of an operator in an execution. -/
inductive RunState where
  | succeeded
  | failed
  /-- It has not run, because of a failure before it. -/
  | upstreamFailed
  | skipped
deriving DecidableEq, Repr

namespace RunState

/-- The operator has run. -/
def hasRun : RunState → Bool
  | succeeded | failed => true
  | upstreamFailed | skipped => false

/-- The operator has failed or given up. -/
def hasFailed : RunState → Bool
  | failed | upstreamFailed => true
  | succeeded | skipped => false

/-- The outcome that others take from a state. -/
def outcome : RunState → Option Outcome
  | succeeded => some .success
  | failed | upstreamFailed => some .failure
  | skipped => none

theorem outcome_eq_success_iff {state : RunState} :
    state.outcome = some .success ↔ state = .succeeded := by
  cases state <;> simp [outcome]

theorem outcome_eq_failure_iff {state : RunState} :
    state.outcome = some .failure ↔ state.hasFailed = true := by
  cases state <;> simp [outcome, hasFailed]

end RunState

/-- The rule fires over the states of what an operator waits on. -/
def TriggerRule.fires (rule : TriggerRule) (states : List RunState) : Bool :=
  match rule with
  | .allSuccess => states.all (· = .succeeded)
  | .oneSuccess => states.any (· = .succeeded)
  | .oneFailed => states.any RunState.hasFailed
  | .noneFailedMinOneSuccess => !states.any RunState.hasFailed && states.any (· = .succeeded)

/-- Rules see no more of a state than its outcome. -/
theorem TriggerRule.fires_iff_holds {rule : TriggerRule} {states : List RunState} :
    rule.fires states = true ↔ rule.Holds (states.map RunState.outcome) := by
  cases rule with
  | allSuccess => simp [fires, Holds, RunState.outcome_eq_success_iff]
  | oneSuccess => simp [fires, Holds, RunState.outcome_eq_success_iff]
  | oneFailed => simp [fires, Holds, RunState.outcome_eq_failure_iff]
  | noneFailedMinOneSuccess =>
      simp [fires, Holds, RunState.outcome_eq_success_iff, RunState.outcome_eq_failure_iff]

namespace Operator

/-- The operator fails when it runs: kills do, and the actions that do not succeed. -/
def fails (o : Operator) (succeeds : String → Bool) : Bool :=
  match o.task? with
  | some task => task.body.isKill || !succeeds task.source
  | none => false

/-- What becomes of the operator when others have these states. -/
def stateAfter (o : Operator) (operators : List Operator) (succeeds : String → Bool)
    (state : String → RunState) : RunState :=
  if o.triggerRule.fires (o.predecessors.map state) = true ∧ o.Follows operators then
    if o.fails succeeds then .failed else .succeeded
  else if o.triggerRule ≠ .oneFailed ∧ (o.predecessors.map state).any RunState.hasFailed = true then
    .upstreamFailed
  else
    .skipped

/-- What has run was triggered, and has done as the actions do. -/
theorem stateAfter_of_hasRun {o : Operator} {operators : List Operator} {succeeds : String → Bool}
    {state : String → RunState} (hRun : (o.stateAfter operators succeeds state).hasRun = true) :
    o.Runs operators (RunState.outcome ∘ state) ∧
      o.stateAfter operators succeeds state =
        if o.fails succeeds then .failed else .succeeded := by
  unfold stateAfter at hRun ⊢
  split at hRun
  next hRuns =>
    rw [if_pos hRuns]
    refine ⟨⟨?_, hRuns.2⟩, rfl⟩
    rw [← List.map_map, ← TriggerRule.fires_iff_holds]
    exact hRuns.1
  next =>
    -- What is not triggered gives up or is skipped.
    split at hRun
    · cases hRun
    · cases hRun

end Operator

/-- The states of operators make up an execution in which the actions succeed as given. -/
def Execution (operators : List Operator) (succeeds : String → Bool) (state : String → RunState) :
    Prop :=
  ∀ o ∈ operators, state o.id = o.stateAfter operators succeeds state

instance (operators : List Operator) (succeeds : String → Bool) (state : String → RunState) :
    Decidable (Execution operators succeeds state) :=
  inferInstanceAs (Decidable (∀ o ∈ operators, _))

/-- A layout can be executed, whatever the outcomes of its actions. -/
theorem Layout.exists_execution {ordered : List Operator} (hOrder : InOrder [] ordered)
    (hIds : (ordered.map Operator.id).Nodup) (succeeds : String → Bool) :
    ∃ state, Execution ordered succeeds state := by
  refine exists_settled .skipped ?_ hOrder hIds
  intro o state state' hBefore
  unfold Operator.stateAfter
  rw [hBefore]

namespace Execution

variable {operators : List Operator} {succeeds : String → Bool} {state : String → RunState}

/-- The order of the operators does not matter to an execution. -/
theorem of_perm {ordered : List Operator} (hPerm : ordered.Perm operators)
    (hExecution : Execution ordered succeeds state) : Execution operators succeeds state := by
  intro o hMem
  rw [hExecution o (hPerm.mem_iff.mpr hMem)]
  unfold Operator.stateAfter
  simp only [Operator.follows_iff_of_perm hPerm]

theorem of_hasRun (hExecution : Execution operators succeeds state) {o : Operator}
    (hMem : o ∈ operators) (hRun : (state o.id).hasRun = true) :
    o.Runs operators (RunState.outcome ∘ state) ∧
      state o.id = if o.fails succeeds then .failed else .succeeded := by
  rw [hExecution o hMem] at hRun ⊢
  exact Operator.stateAfter_of_hasRun hRun

theorem triggered (hExecution : Execution operators succeeds state) :
    Triggered operators (RunState.outcome ∘ state) := by
  intro o hMem hSuccess
  have hSucceeded : state o.id = .succeeded := RunState.outcome_eq_success_iff.mp hSuccess
  exact (hExecution.of_hasRun hMem (by rw [hSucceeded]; rfl)).1

/-- The task of an action that has run did as the action does. -/
theorem succeeds_iff (hExecution : Execution operators succeeds state) {task : Task}
    {predecessors : List String} (hMem : Wiring.taskOperator task predecessors ∈ operators)
    (hAction : task.body.isKill = false) (hRun : (state task.id).hasRun = true) :
    succeeds task.source = true ↔ state task.id = .succeeded := by
  have hState : state task.id = _ := (hExecution.of_hasRun hMem hRun).2
  have hFails : (Wiring.taskOperator task predecessors).fails succeeds = !succeeds task.source := by
    simp [Operator.fails, Operator.task?, Wiring.taskOperator, hAction]
  rw [hState, hFails]
  cases succeeds task.source <;> simp

end Execution

namespace Workflow

/-- Control goes on from one node to another, in a run in which the actions succeed as given. -/
inductive Passes (w : Workflow) (g : TaskGraph) (succeeds : String → Bool) : String → String → Prop
  | next {name target : String} (hFind : find? w.nodes name = some (.start target)) :
      Passes w g succeeds name target
  | path {name target : String} {f : Fork} (hFind : find? w.nodes name = some (.fork f))
      (hPath : target ∈ f.paths) : Passes w g succeeds name target
  | join {name joinName target : String}
      (hFind : find? w.nodes name = some (.join joinName target)) : Passes w g succeeds name target
  | ok {name : String} {a : Action} (hFind : find? w.nodes name = some (.action a))
      (hSucceeds : succeeds name = true) : Passes w g succeeds name a.ok
  | error {name : String} {a : Action} (hFind : find? w.nodes name = some (.action a))
      (hFails : succeeds name = false) : Passes w g succeeds name a.error
  | selected {name : String} {d : Decision} {record : ResolvedDecision}
      (hFind : find? w.nodes name = some (.decision d)) (hRecord : record ∈ g.decisions)
      (hDecision : record.decision = name) : Passes w g succeeds name record.selected

/-- Control reaches the node. -/
def Reached (w : Workflow) (g : TaskGraph) (succeeds : String → Bool) : String → Prop :=
  Relation.ReflTransGen (Passes w g succeeds) Node.startName

/-- Control would come to the node on the error of an action that has given up. -/
def AfterUpstreamFailure (w : Workflow) (g : TaskGraph) (succeeds : String → Bool)
    (state : String → RunState) (name : String) : Prop :=
  ∃ before a, Reachable w.nodes before ∧ find? w.nodes before = some (.action a) ∧
    state (Task.idOf before) = .upstreamFailed ∧
    Relation.ReflTransGen (Passes w g succeeds) a.error name

/-- The node is reached, or comes behind an action that has given up. -/
def Accounted (w : Workflow) (g : TaskGraph) (succeeds : String → Bool) (state : String → RunState)
    (name : String) : Prop :=
  Reached w g succeeds name ∨ AfterUpstreamFailure w g succeeds state name

section

variable {w : Workflow} {g : TaskGraph} {succeeds : String → Bool} {state : String → RunState}
  {name target : String}

theorem Accounted.step (hAccounted : Accounted w g succeeds state name)
    (hPasses : Passes w g succeeds name target) : Accounted w g succeeds state target := by
  rcases hAccounted with hReached | ⟨before, a, hReachable, hFind, hState, hBehind⟩
  · exact Or.inl (hReached.tail hPasses)
  · exact Or.inr ⟨before, a, hReachable, hFind, hState, hBehind.tail hPasses⟩

/-- Where control goes on from a node. -/
theorem Passes.inversion {node : Node} (hFind : find? w.nodes name = some node)
    (hPasses : Passes w g succeeds name target) :
    match node with
    | .start after => target = after
    | .fork f => target ∈ f.paths
    | .join _ after => target = after
    | .action a => target = if succeeds name then a.ok else a.error
    | .decision _ => ∃ record ∈ g.decisions, record.decision = name ∧ target = record.selected
    | _ => False := by
  cases hPasses with
  | next hOwn =>
      cases hFind.symm.trans hOwn
      rfl
  | path hOwn hPath =>
      cases hFind.symm.trans hOwn
      exact hPath
  | join hOwn =>
      cases hFind.symm.trans hOwn
      rfl
  | ok hOwn hSucceeds =>
      cases hFind.symm.trans hOwn
      simp only [hSucceeds, if_true]
  | error hOwn hFails =>
      cases hFind.symm.trans hOwn
      simp only [hFails, Bool.false_eq_true, if_false]
  | selected hOwn hRecord hDecision =>
      cases hFind.symm.trans hOwn
      exact ⟨_, hRecord, hDecision, rfl⟩

end

end Workflow

/-- If the operator of the node has run, the node is accounted for. -/
def Wiring.AccountedIfRun (w : Workflow) (g : TaskGraph) (plans : List BranchPlan)
    (operators : List Operator) (succeeds : String → Bool) (state : String → RunState)
    (name : String) : Prop :=
  ∀ entries o, Station w g plans operators name entries o → (state o.id).hasRun = true →
    w.Accounted g succeeds state name

namespace Assembled

open Wiring

variable {w : Workflow} {options : TaskOptions} {g : TaskGraph} {plans : List BranchPlan}
  {operators : List Operator} {succeeds : String → Bool} {state : String → RunState} {name : String}

/-- The ok transition of an action whose success comes is accounted for if the action is. -/
theorem accounted_of_success (h : Assembled w options g plans operators)
    (hExecution : Execution operators succeeds state) {a : Action}
    (hReachable : Workflow.Reachable w.nodes name)
    (hFind : Workflow.find? w.nodes name = some (.action a))
    (hSender : AccountedIfRun w g plans operators succeeds state name)
    (hFired : Fired plans (RunState.outcome ∘ state) (.success (Task.idOf name))) :
    w.Accounted g succeeds state a.ok := by
  obtain ⟨entries, task, predecessors, hStation, hId, rfl, hAction⟩ :=
    h.exists_station_of_action hReachable hFind
  rw [← hId] at hFired
  have hState : state task.id = .succeeded := RunState.outcome_eq_success_iff.mp hFired
  have hRun : (state task.id).hasRun = true := by rw [hState]; rfl
  have hSucceeds := (hExecution.succeeds_iff hStation.mem hAction hRun).mpr hState
  exact (hSender _ _ hStation hRun).step (.ok hFind hSucceeds)

/-- The error transition of an action whose failure comes is accounted for if the action is, or else
because the action has given up. -/
theorem accounted_of_failure (h : Assembled w options g plans operators)
    (hExecution : Execution operators succeeds state) {a : Action}
    (hReachable : Workflow.Reachable w.nodes name)
    (hFind : Workflow.find? w.nodes name = some (.action a))
    (hSender : AccountedIfRun w g plans operators succeeds state name)
    (hFired : Fired plans (RunState.outcome ∘ state) (.failure (Task.idOf name))) :
    w.Accounted g succeeds state a.error := by
  obtain ⟨entries, task, predecessors, hStation, hId, rfl, hAction⟩ :=
    h.exists_station_of_action hReachable hFind
  rw [← hId] at hFired
  have hFailed : (state task.id).hasFailed = true := RunState.outcome_eq_failure_iff.mp hFired
  cases hState : state task.id with
  | succeeded => rw [hState] at hFailed; cases hFailed
  | skipped => rw [hState] at hFailed; cases hFailed
  | upstreamFailed => exact Or.inr ⟨_, a, hReachable, hFind, hId ▸ hState, .refl⟩
  | failed =>
      have hRun : (state task.id).hasRun = true := by rw [hState]; rfl
      have hSucceeds := hExecution.succeeds_iff hStation.mem hAction hRun
      rw [hState] at hSucceeds
      have hFails : succeeds task.source = false := by simpa using hSucceeds
      exact (hSender _ _ hStation hRun).step (.error hFind hFails)

/-- The target of a branch whose signal comes is accounted for if the decision is. -/
theorem accounted_of_branch (h : Assembled w options g plans operators)
    (hExecution : Execution operators succeeds state) {step : PassedBranch} {target : String}
    (hCross : w.Crosses name (.branch step.decision step.caseIndex step.guard) target)
    (hSender : AccountedIfRun w g plans operators succeeds state name)
    (hFired : Fired plans (RunState.outcome ∘ state) (.branch step)) :
    w.Accounted g succeeds state target := by
  obtain ⟨rfl, d, hFind⟩ := hCross.exists_decision
  obtain ⟨taken, hPlanned⟩ := h.planned
  -- The dummy that sends the signal tells the plan of the decision.
  have ⟨id, hDummy, _⟩ := hFired
  obtain ⟨plan, hPlan, hDecision, hBranch⟩ := exists_plan_of_sender hDummy
  obtain ⟨hRuns, hTaken⟩ := h.taken_of_fired hExecution.triggered hPlan hDecision hBranch hFired
  obtain ⟨hRecord, -⟩ := TaskGraph.mem_of_recordOf? (hPlanned.recorded plan hPlan)
  obtain ⟨predecessors, hStation⟩ := h.exists_station_of_plan hPlan
  have hState : state plan.id = .succeeded := RunState.outcome_eq_success_iff.mp hRuns
  rw [← hDecision] at hFind hSender hCross
  have hRun : (state plan.id).hasRun = true := by rw [hState]; rfl
  have hAccounted := hSender _ _ hStation hRun
  -- The branch crossed is the one taken, so it leads where the record says.
  obtain ⟨guard, hSelected⟩ := h.transformed.crosses_selected hRecord hFind
  rw [hTaken] at hSelected
  rw [hCross.eq_of_caseIndex hSelected]
  exact hAccounted.step (.selected hFind hRecord rfl)

/-- A node to which a signal that comes is brought is accounted for if all that leads to it and runs
is. -/
theorem accounted_of_brings (h : Assembled w options g plans operators)
    (hExecution : Execution operators succeeds state) {signal? : Option Signal}
    {join? : Option String} (hBrings : w.Brings signal? join? name) :
    (∀ signal, signal? = some signal → Fired plans (RunState.outcome ∘ state) signal) →
    (∀ sender, Relation.TransGen (Workflow.Leads w.nodes) sender name →
      AccountedIfRun w g plans operators succeeds state sender) →
    w.Accounted g succeeds state name := by
  induction hBrings with
  | start => exact fun _ _ => Or.inl .refl
  | ok hReachable hFind =>
      intro hFired hBefore
      exact h.accounted_of_success hExecution hReachable hFind
        (hBefore _ (.single (Workflow.leads_ok hFind))) (hFired _ rfl)
  | error hReachable hFind =>
      intro hFired hBefore
      exact h.accounted_of_failure hExecution hReachable hFind
        (hBefore _ (.single (Workflow.leads_error hFind))) (hFired _ rfl)
  | plain _ hCross ih =>
      intro hFired hBefore
      have hAccounted := ih hFired fun sender hLeads => hBefore sender (hLeads.tail hCross.leads)
      cases hCross with
      | start hFind => exact hAccounted.step (.next hFind)
      | fork hFind hPath => exact hAccounted.step (.path hFind hPath)
  | join _ hCross ih =>
      intro hFired hBefore
      have hAccounted := ih hFired fun sender hLeads => hBefore sender (hLeads.tail hCross.leads)
      cases hCross with
      | join hFind => exact hAccounted.step (.join hFind)
  | branch _ hCross _ =>
      intro hFired hBefore
      exact h.accounted_of_branch hExecution hCross (hBefore _ (.single hCross.leads))
        (hFired _ rfl)

/-- Tasks and decisions that run are accounted for, by induction on the rank of the node. -/
theorem accounted_of_hasRun (h : Assembled w options g plans operators)
    (hExecution : Execution operators succeeds state) {entries : List JoinedSignal} {o : Operator}
    (hStation : Station w g plans operators name entries o)
    (hRun : (state o.id).hasRun = true) : w.Accounted g succeeds state name := by
  obtain ⟨rank, hRank⟩ := h.checked.ranked
  induction hHeight : rank name using Nat.strong_induction_on generalizing name entries o with
  | _ height ih =>
      have hBefore : ∀ sender, Relation.TransGen (Workflow.Leads w.nodes) sender name →
          AccountedIfRun w g plans operators succeeds state sender := by
        intro sender hLeads entries o hOwn hOwnRun
        have hLower : rank sender < height :=
          hHeight ▸ hRank.lt_of_transGen hOwn.reachable hLeads
        exact ih _ hLower hOwn hOwnRun rfl
      have hRuns := (hExecution.of_hasRun hStation.mem hRun).1
      rcases hStation.fired_of_runs hExecution.triggered hRuns with hNone | ⟨e, hEntry, hFired⟩
      · -- Nothing is waited on, so what is brought to the node is no signal.
        obtain ⟨signal?, join?, hBrings⟩ := Workflow.exists_brings hStation.reachable
        refine h.accounted_of_brings hExecution hBrings ?_ hBefore
        rintro signal rfl
        exact absurd hBrings (hNone ▸ hStation.collects).not_brings
      · refine h.accounted_of_brings hExecution (hStation.collects.sound e hEntry) ?_ hBefore
        rintro signal ⟨⟩
        exact hFired

end Assembled

/-- Where no node name holds a separator, a layout can be executed for all outcomes of the actions,
and what it runs is reached in the workflow or comes behind the error transition of an action that
has given up without running. -/
theorem run_reached_or_after_upstream_failure {source : String} {w : Workflow}
    {options : TaskOptions} {g : TaskGraph} (hRead : (Workflow.read source).result = .ok w)
    (hFree : w.SeparatorFree) (hGraph : (TaskGraph.ofWorkflow w options).result = .ok g) :
    ∃ operators, g.layout = .ok operators ∧ ∀ succeeds,
      (∃ state, Execution operators succeeds state) ∧
      ∀ state, Execution operators succeeds state → ∀ name, w.OwnsTask name →
        (∃ o ∈ operators, o.id = Task.idOf name ∧ ∃ task, o.task? = some task ∧
          task.source = name) ∧
        ((state (Task.idOf name)).hasRun = true →
          w.Reached g succeeds name ∨ w.AfterUpstreamFailure g succeeds state name) := by
  have hChecked := Workflow.checked_of_read hRead
  have hTransformed := Transformed.of_ofWorkflow hChecked hGraph
  obtain ⟨plans, operators, hOperators, hAssembled⟩ := hTransformed.exists_assembled hChecked hFree
  obtain ⟨ordered, hOrdered, hPerm, hInOrder⟩ := hAssembled.exists_order
  refine ⟨ordered, bind_eq_ok_iff.mpr ⟨operators, hOperators, hOrdered⟩, fun succeeds => ⟨?_, ?_⟩⟩
  · have hIds : (ordered.map Operator.id).Nodup :=
      (hPerm.map Operator.id).nodup_iff.mpr hAssembled.wired.distinct
    exact Layout.exists_execution hInOrder hIds succeeds
  · intro state hExecution name hOwns
    obtain ⟨task, hTask, rfl⟩ := hTransformed.exists_task hOwns
    obtain ⟨predecessors, hStation⟩ := hAssembled.exists_station_of_task hTask
    rw [← (hTransformed.sound task hTask).id]
    constructor
    · exact ⟨_, hPerm.mem_iff.mpr hStation.mem, rfl, task, rfl, rfl⟩
    · exact hAssembled.accounted_of_hasRun (hExecution.of_perm hPerm) hStation

namespace Cascade

/-- The units of a document with two actions in a row.  The second one has a kill on its error. -/
def units : List Char :=
  ["<w name='w'>",
    "<start to='a'/>",
    "<action name='a'><x/><ok to='b'/><error to='e'/></action>",
    "<action name='b'><x/><ok to='e'/><error to='k'/></action>",
    "<kill name='k'/>",
    "<end name='e'/>",
    "</w>"].flatMap String.toList

/-- The document with these units. -/
def source : String :=
  String.ofList units

/-- The workflow of the document. -/
def workflow : Workflow where
  name := "w"
  nodes :=
    [.start "a", .action { name := "a", actionType := "x", ok := "b", error := "e" },
      .action { name := "b", actionType := "x", ok := "e", error := "k" }, .kill "k" "",
      .finish "e"]
  closingJoins := []
  defaults := .empty

/-- The task of the first action, which waits on nothing. -/
def first : Task where
  id := "a"
  source := "a"
  body := .action "x" {}

/-- The task of the second action. -/
def second : Task where
  id := "b"
  source := "b"
  body := .action "x" {}
  dependencies := [⟨some "a", .success, [], none⟩]

/-- The task of the kill. -/
def kill : Task where
  id := "k"
  source := "k"
  body := .kill ""
  dependencies := [⟨some "b", .failure, [], none⟩]

/-- The tasks of the workflow. -/
def graph : TaskGraph where
  workflow := "w"
  tasks := [first, second, kill]
  decisions := []

/-- The layout: the kill waits for the second action alone. -/
def operators : List Operator :=
  [⟨"a", .task first, "a", [], .allSuccess⟩, ⟨"b", .task second, "b", ["a"], .allSuccess⟩,
    ⟨"k", .task kill, "k", ["b"], .oneFailed⟩]

/-- The first action fails. -/
def succeeds (name : String) : Bool :=
  name ≠ "a"

/-- What becomes of the tasks: the second action gives up, and the kill takes that for a failure. -/
def state (id : String) : RunState :=
  if id = "b" then .upstreamFailed else .failed

theorem read_source : (Workflow.read source).result = .ok workflow :=
  Workflow.read_ofList (by decide +kernel)

theorem ofWorkflow_workflow : (TaskGraph.ofWorkflow workflow {}).result = .ok graph := by
  decide +kernel

theorem layout_graph : graph.layout = .ok operators := by
  decide +kernel

theorem ownsTask_kill : workflow.OwnsTask "k" := by
  have hStart : Workflow.Leads workflow.nodes "start" "a" := by unfold Workflow.Leads; decide
  have hOk : Workflow.Leads workflow.nodes "a" "b" := by unfold Workflow.Leads; decide
  have hError : Workflow.Leads workflow.nodes "b" "k" := by unfold Workflow.Leads; decide
  have hReachable := (((Workflow.Reachable.start workflow.nodes).step hStart).step hOk).step hError
  exact ⟨hReachable, _, rfl, Or.inr rfl⟩

/-- Control reaches the first action, and the end on its error. -/
theorem mem_of_reached {name : String} (hReached : workflow.Reached graph succeeds name) :
    name ∈ ["start", "a", "e"] := by
  induction hReached with
  | refl => exact List.mem_cons_self
  | tail _ hPasses ih =>
      simp only [List.mem_cons, List.not_mem_nil, or_false] at ih
      rcases ih with rfl | rfl | rfl
      · obtain rfl : _ = "a" := hPasses.inversion rfl
        decide
      · obtain rfl : _ = "e" := hPasses.inversion rfl
        decide
      · have hEnd : Workflow.find? workflow.nodes "e" = some (.finish "e") := rfl
        exact (hPasses.inversion hEnd).elim

end Cascade

theorem run_reached_or_after_upstream_failure_cascade :
    ∃ operators, Cascade.graph.layout = .ok operators ∧
      (∃ state, Execution operators Cascade.succeeds state) ∧
      ∀ state, Execution operators Cascade.succeeds state → (state "k").hasRun = true →
        Cascade.workflow.AfterUpstreamFailure Cascade.graph Cascade.succeeds state "k" := by
  obtain ⟨operators, hLayout, hAll⟩ := run_reached_or_after_upstream_failure Cascade.read_source
    (by decide) Cascade.ofWorkflow_workflow
  obtain ⟨hExists, hStates⟩ := hAll Cascade.succeeds
  refine ⟨operators, hLayout, hExists, fun state hExecution hRun => ?_⟩
  obtain ⟨-, hAccounted⟩ := hStates state hExecution "k" Cascade.ownsTask_kill
  rcases hAccounted hRun with hReached | hAfter
  · exact absurd (Cascade.mem_of_reached hReached) (by decide)
  · exact hAfter

/-- The kill on the error of the second action runs, though control reaches neither of them. -/
theorem cascade_runs_unreached_kill :
    (Workflow.read Cascade.source).result = .ok Cascade.workflow ∧
    (TaskGraph.ofWorkflow Cascade.workflow {}).result = .ok Cascade.graph ∧
    Cascade.graph.layout = .ok Cascade.operators ∧
    Execution Cascade.operators Cascade.succeeds Cascade.state ∧
    Cascade.workflow.OwnsTask "k" ∧ (Cascade.state (Task.idOf "k")).hasRun = true ∧
    ¬Cascade.workflow.Reached Cascade.graph Cascade.succeeds "b" ∧
    ¬Cascade.workflow.Reached Cascade.graph Cascade.succeeds "k" := by
  refine ⟨Cascade.read_source, Cascade.ofWorkflow_workflow, Cascade.layout_graph, by decide,
    Cascade.ownsTask_kill, by decide, fun hReached => ?_, fun hReached => ?_⟩
  · exact absurd (Cascade.mem_of_reached hReached) (by decide)
  · exact absurd (Cascade.mem_of_reached hReached) (by decide)

end WorkflowDag
