import WorkflowDag.Proofs.OperatorRun

/-!
# Runs without failures

In a run of a workflow in which no action fails, control enters the start and goes on along all
paths of forks, the ok transitions of actions and the branches that the configuration selects:
`Entered`.  Main statement: in a run of the layout in which nothing but kills fails, exactly the
tasks of nodes that control enters run (`run_iff_entered`).

Both runs go by signals.  A node that control enters has been sent a signal that comes, or control
has come to it from the start through forks alone (`Entered.throughForks_or_sends`), and the other
way round (`Brings.entered`).  Whether an operator runs is decided by the signals of nodes with a
lower rank (`Assembled.runs_iff_entered`).
-/

namespace WorkflowDag

namespace Workflow

/-- Control enters the node in a run without failures. -/
inductive Entered (w : Workflow) (g : TaskGraph) : String → Prop
  | start : Entered w g Node.startName
  | next {name target : String} (hEntered : Entered w g name)
      (hFind : find? w.nodes name = some (.start target)) : Entered w g target
  | path {name target : String} {f : Fork} (hEntered : Entered w g name)
      (hFind : find? w.nodes name = some (.fork f)) (hPath : target ∈ f.paths) : Entered w g target
  | join {name joinName target : String} (hEntered : Entered w g name)
      (hFind : find? w.nodes name = some (.join joinName target)) : Entered w g target
  | ok {name : String} {a : Action} (hEntered : Entered w g name)
      (hFind : find? w.nodes name = some (.action a)) : Entered w g a.ok
  | selected {name : String} {d : Decision} {record : ResolvedDecision}
      (hEntered : Entered w g name) (hFind : find? w.nodes name = some (.decision d))
      (hRecord : record ∈ g.decisions) (hDecision : record.decision = name) :
      Entered w g record.selected

/-- The start leads to the node through forks alone. -/
inductive ThroughForks (w : Workflow) : String → Prop
  | start : ThroughForks w Node.startName
  | step {name target : String} (hBefore : ThroughForks w name)
      (hCross : Crosses w name .plain target) : ThroughForks w target

/-- All ways from the start to the node lead through forks alone. -/
def OnlyThroughForks (w : Workflow) (name : String) : Prop :=
  ∀ before after, Reachable w.nodes before → Leads w.nodes before after →
    Relation.ReflTransGen (Leads w.nodes) after name → Crosses w before .plain after

/-- The signal comes in a run without failures. -/
inductive Sends (w : Workflow) (g : TaskGraph) : Signal → Prop
  | success {name : String} {a : Action} (hEntered : Entered w g name)
      (hFind : find? w.nodes name = some (.action a)) : Sends w g (.success (Task.idOf name))
  | branch {step : PassedBranch} {record : ResolvedDecision}
      (hEntered : Entered w g step.decision) (hRecord : record ∈ g.decisions)
      (hDecision : record.decision = step.decision) (hTaken : record.takenCase = step.caseIndex) :
      Sends w g (.branch step)

section

variable {w : Workflow} {options : TaskOptions} {g : TaskGraph}

/-- The branches of a decision are told apart by their position. -/
theorem Crosses.eq_of_caseIndex {name decision decision' target target' : String}
    {caseIndex : Option Nat} {guard guard' : Option String}
    (hCross : Crosses w name (.branch decision caseIndex guard) target)
    (hCross' : Crosses w name (.branch decision' caseIndex guard') target') : target = target' := by
  cases hCross with
  | case hFind hCase =>
      cases hCross' with
      | case hFind' hCase' =>
          cases hFind.symm.trans hFind'
          cases hCase.symm.trans hCase'
          rfl
  | fallback hFind =>
      cases hCross' with
      | fallback hFind' =>
          cases hFind.symm.trans hFind'
          rfl

/-- The record of a decision selects the target of the branch that it takes. -/
theorem crosses_selected {name : String} {d : Decision} (selection : GuardChoice)
    (hFind : find? w.nodes name = some (.decision d)) :
    ∃ guard, Crosses w name (.branch name (Walk.recordOf d selection).takenCase guard)
      (Walk.recordOf d selection).selected := by
  cases hChosen : selection.index.bind fun index => d.cases[index]? with
  | none =>
      refine ⟨none, ?_⟩
      simp only [Walk.recordOf, hChosen]
      exact .fallback hFind
  | some c =>
      obtain ⟨index, hIndex, hCase⟩ := Option.bind_eq_some_iff.mp hChosen
      refine ⟨some c.guard, ?_⟩
      simp only [Walk.recordOf, hIndex, Option.bind_some, hCase]
      exact .case hFind hCase

end

end Workflow

namespace Transformed

variable {w : Workflow} {options : TaskOptions} {g : TaskGraph}

theorem crosses_selected (hTransformed : Transformed w options g) {record : ResolvedDecision}
    (hRecord : record ∈ g.decisions) {d : Decision}
    (hFind : Workflow.find? w.nodes record.decision = some (.decision d)) :
    ∃ guard, w.Crosses record.decision (.branch record.decision record.takenCase guard)
      record.selected := by
  obtain ⟨selection, hSame⟩ := hTransformed.eq_recordOf hRecord hFind
  obtain ⟨guard, hCross⟩ := Workflow.crosses_selected selection hFind
  rw [← hSame] at hCross
  exact ⟨guard, hCross⟩

/-- No join is reached through forks alone. -/
theorem ne_join_of_throughForks (hTransformed : Transformed w options g) (hChecked : w.Checked)
    {name : String} (hThrough : w.ThroughForks name) :
    ∀ joinName target, Workflow.find? w.nodes name ≠ some (.join joinName target) := by
  cases hThrough with
  | start => exact hTransformed.outside _ (Or.inl rfl)
  | step hBefore hCross =>
      cases hCross with
      | start hFind =>
          have hStart := Workflow.name_of_find? hFind
          rw [← hStart] at hFind
          exact hTransformed.outside _ (Or.inr hFind)
      | fork hFind hPath =>
          intro joinName target hJoin
          have hNone := hChecked.paths _ (Workflow.mem_of_find? hFind) _ hPath
          unfold Workflow.isJoin at hNone
          rw [hJoin] at hNone
          cases hNone

end Transformed

namespace Workflow

variable {w : Workflow} {options : TaskOptions} {g : TaskGraph} {name : String}

theorem Entered.reachable (hTransformed : Transformed w options g)
    (hEntered : Entered w g name) : Reachable w.nodes name := by
  induction hEntered with
  | start => exact Reachable.start w.nodes
  | next _ hFind ih => exact ih.step (Crosses.start hFind).leads
  | path _ hFind hPath ih => exact ih.step (Crosses.fork hFind hPath).leads
  | join _ hFind ih => exact ih.step (Crosses.join hFind).leads
  | ok _ hFind ih => exact ih.step (leads_ok hFind)
  | selected _ hFind hRecord hDecision ih =>
      subst hDecision
      obtain ⟨guard, hCross⟩ := hTransformed.crosses_selected hRecord hFind
      exact ih.step hCross.leads

/-- What is brought to a node goes on along its transitions, and a signal is followed by signals. -/
theorem Brings.exists_of_leads {signal? : Option Signal} {join? : Option String} {target : String}
    (hBrings : Brings w signal? join? name) (hLeads : Leads w.nodes name target) :
    ∃ next? nextJoin?, Brings w next? nextJoin? target ∧
      (signal?.isSome = true → next?.isSome = true) := by
  have hReachable := hBrings.reachable
  rcases Leads.crosses_or_outcome hLeads with ⟨crossing, hCross⟩ | ⟨a, hFind, rfl | rfl⟩
  · cases crossing with
    | plain => exact ⟨_, _, hBrings.plain hCross, id⟩
    | join joinName => exact ⟨_, _, hBrings.join hCross, id⟩
    | branch decision caseIndex guard => exact ⟨_, _, hBrings.branch hCross, fun _ => rfl⟩
  · exact ⟨_, _, .ok hReachable hFind, fun _ => rfl⟩
  · exact ⟨_, _, .error hReachable hFind, fun _ => rfl⟩

/-- Something is brought to every node that can be reached. -/
theorem exists_brings (hReachable : Reachable w.nodes name) :
    ∃ signal? join?, Brings w signal? join? name := by
  induction hReachable with
  | refl => exact ⟨none, none, .start⟩
  | tail _ hLeads ih =>
      obtain ⟨signal?, join?, hBrings⟩ := ih
      obtain ⟨next?, nextJoin?, hNext, -⟩ := hBrings.exists_of_leads hLeads
      exact ⟨next?, nextJoin?, hNext⟩

/-- An action whose success comes is entered: no other has its task id. -/
theorem Sends.entered_of_success (hTransformed : Transformed w options g)
    (hReachable : Reachable w.nodes name) {a : Action}
    (hFind : find? w.nodes name = some (.action a))
    (hSends : Sends w g (.success (Task.idOf name))) : Entered w g name := by
  generalize hSignal : Signal.success (Task.idOf name) = signal at hSends
  cases hSends with
  | @success other a' hEntered hFind' =>
      have hSame : name = other :=
        hTransformed.eq_of_idOf ⟨hReachable, _, hFind, Or.inl rfl⟩
          ⟨hEntered.reachable hTransformed, _, hFind', Or.inl rfl⟩ (Signal.success.inj hSignal)
      exact hSame ▸ hEntered
  | branch => cases hSignal

/-- Control enters a node when the signal brought to it comes, or when there is none. -/
theorem Brings.entered (hTransformed : Transformed w options g) {signal? : Option Signal}
    {join? : Option String} (hBrings : Brings w signal? join? name)
    (hSends : ∀ signal, signal? = some signal → Sends w g signal) : Entered w g name := by
  induction hBrings with
  | start => exact .start
  | ok hReachable hFind =>
      exact ((hSends _ rfl).entered_of_success hTransformed hReachable hFind).ok hFind
  | error hReachable hFind => cases hSends _ rfl
  | plain _ hCross ih =>
      have hEntered := ih hSends
      cases hCross with
      | start hFind => exact hEntered.next hFind
      | fork hFind hPath => exact hEntered.path hFind hPath
  | join _ hCross ih =>
      have hEntered := ih hSends
      cases hCross with
      | join hFind => exact hEntered.join hFind
  | @branch _ _ name decision target caseIndex guard _ hCross _ =>
      obtain ⟨rfl, d, hFind⟩ := hCross.exists_decision
      have hOwn := hSends _ rfl
      cases hOwn with
      | @branch _ record hEntered hRecord hDecision hTaken =>
          -- The branch crossed is the one taken, so it leads where the record says.
          simp only at hDecision hTaken
          subst hDecision hTaken
          obtain ⟨guard', hSelected⟩ := hTransformed.crosses_selected hRecord hFind
          rw [hCross.eq_of_caseIndex hSelected]
          exact hEntered.selected hFind hRecord rfl

/-- Nothing comes to a node that control enters but through forks alone, or a signal comes. -/
theorem Entered.throughForks_or_sends (hTransformed : Transformed w options g)
    (hChecked : w.Checked) (hEntered : Entered w g name) :
    w.ThroughForks name ∨ ∃ signal join?, Brings w (some signal) join? name ∧ Sends w g signal := by
  induction hEntered with
  | start => exact Or.inl .start
  | next _ hFind ih =>
      rcases ih with hThrough | ⟨signal, join?, hBrings, hSends⟩
      · exact Or.inl (hThrough.step (.start hFind))
      · exact Or.inr ⟨signal, join?, hBrings.plain (.start hFind), hSends⟩
  | path _ hFind hPath ih =>
      rcases ih with hThrough | ⟨signal, join?, hBrings, hSends⟩
      · exact Or.inl (hThrough.step (.fork hFind hPath))
      · exact Or.inr ⟨signal, join?, hBrings.plain (.fork hFind hPath), hSends⟩
  | join _ hFind ih =>
      rcases ih with hThrough | ⟨signal, join?, hBrings, hSends⟩
      · -- A way through forks alone opens joins but comes to none.
        exact absurd hFind (hTransformed.ne_join_of_throughForks hChecked hThrough _ _)
      · exact Or.inr ⟨signal, _, hBrings.join (.join hFind), hSends⟩
  | ok hEntered hFind _ =>
      have hReachable := hEntered.reachable hTransformed
      exact Or.inr ⟨_, _, .ok hReachable hFind, .success hEntered hFind⟩
  | selected hEntered hFind hRecord hDecision _ =>
      subst hDecision
      obtain ⟨signal?, join?, hBrings⟩ := exists_brings (hEntered.reachable hTransformed)
      obtain ⟨guard, hCross⟩ := hTransformed.crosses_selected hRecord hFind
      exact Or.inr ⟨_, _, hBrings.branch hCross, .branch hEntered hRecord rfl rfl⟩

/-- The transitions of the start and of forks are crossed without a trace. -/
theorem Crosses.of_leads {node : Node} {target : String} (hFind : find? w.nodes name = some node)
    (hKind : node.kind = .start ∨ node.kind = .fork) (hLeads : Leads w.nodes name target) :
    Crosses w name .plain target := by
  obtain ⟨transition, hMem, rfl⟩ := (leads_iff hFind).mp hLeads
  cases node with
  | start next =>
      rw [List.mem_singleton.mp hMem]
      exact .start hFind
  | fork f =>
      obtain ⟨path, hPath, rfl⟩ := List.mem_map.mp hMem
      exact .fork hFind hPath
  | action a => simp [Node.kind] at hKind
  | decision d => simp [Node.kind] at hKind
  | join joinName next => simp [Node.kind] at hKind
  | kill killName message => simp [Node.kind] at hKind
  | finish endName => simp [Node.kind] at hKind

/-- A test for the nodes that the start leads to through forks alone: they are among some names that
no transition enters but those of the start and of forks among them. -/
theorem onlyThroughForks_of_closed (names : List String) (hStart : Node.startName ∈ names)
    (hAfter : ∀ node ∈ w.nodes, node.kind = .start ∨ node.kind = .fork → node.name ∈ names →
      ∀ t ∈ node.transitions, t.target ∈ names)
    (hBefore : ∀ node ∈ w.nodes, ∀ t ∈ node.transitions, t.target ∈ names →
      node.name ∈ names ∧ (node.kind = .start ∨ node.kind = .fork))
    (hThrough : ThroughForks w name) : OnlyThroughForks w name := by
  have hEnters : ∀ {before after : String}, Leads w.nodes before after → after ∈ names →
      before ∈ names ∧ Crosses w before .plain after := by
    intro before after hLeads hMem
    obtain ⟨node, hFind⟩ := hLeads.exists_find?
    obtain ⟨transition, hTransition, hTarget⟩ := (leads_iff hFind).mp hLeads
    obtain ⟨hName, hKind⟩ :=
      hBefore node (mem_of_find? hFind) transition hTransition (hTarget ▸ hMem)
    rw [name_of_find? hFind] at hName
    exact ⟨hName, .of_leads hFind hKind hLeads⟩
  have hNames : name ∈ names := by
    induction hThrough with
    | start => exact hStart
    | step _ hCross ih =>
        cases hCross with
        | start hFind =>
            rw [← name_of_find? hFind] at ih
            exact hAfter _ (mem_of_find? hFind) (Or.inl rfl) ih ⟨.next, _, none⟩
              (List.mem_singleton.mpr rfl)
        | fork hFind hPath =>
            rw [← name_of_find? hFind] at ih
            exact hAfter _ (mem_of_find? hFind) (Or.inr rfl) ih ⟨.path, _, none⟩
              (List.mem_map.mpr ⟨_, hPath, rfl⟩)
  intro before after _ hLeads hRest
  have hEntered : after ∈ names := by
    clear hLeads
    induction hRest using Relation.ReflTransGen.head_induction_on with
    | refl => exact hNames
    | head hFirst _ ih => exact (hEnters hFirst ih).1
  exact (hEnters hLeads hEntered).2

/-- No signal is sent to a node that is reached through forks alone. -/
theorem OnlyThroughForks.not_brings (hOnly : OnlyThroughForks w name) {signal : Signal}
    {join? : Option String} : ¬Brings w (some signal) join? name := by
  intro hBrings
  obtain ⟨sender, hSent, hLeads⟩ := hBrings.exists_sentFrom signal rfl
  obtain ⟨after, hFirst, hRest⟩ := Relation.TransGen.head'_iff.mp hLeads
  have hCross := hOnly sender after hSent.reachable hFirst hRest
  cases hSent with
  | success hReachable hFind => exact hCross.inversion hFind
  | failure hReachable hFind => exact hCross.inversion hFind
  | branch hReachable hFind hCase =>
      rcases hCross.inversion hFind with ⟨_, _, _, hBranch, _⟩ | ⟨hBranch, _⟩
      · cases hBranch
      · cases hBranch

end Workflow

namespace Wiring

/-- Branches of a decision have dummies of their own. -/
theorem BranchPlan.eq_of_branch? {plan : BranchPlan} (hDummies : plan.dummies.Nodup)
    {caseIndex caseIndex' : Option Nat} {id : String} (hBranch : plan.branch? caseIndex = some id)
    (hBranch' : plan.branch? caseIndex' = some id) : caseIndex = caseIndex' := by
  unfold BranchPlan.dummies at hDummies
  rw [List.nodup_append] at hDummies
  obtain ⟨hCases, -, hApart⟩ := hDummies
  cases caseIndex with
  | none =>
      cases caseIndex' with
      | none => rfl
      | some index =>
          have hMem := List.mem_of_getElem? hBranch'
          exact absurd (Option.some.inj hBranch).symm
            (hApart id hMem _ (List.mem_singleton.mpr rfl))
  | some index =>
      have hMem := List.mem_of_getElem? hBranch
      cases caseIndex' with
      | none =>
          exact absurd (Option.some.inj hBranch').symm
            (hApart id hMem _ (List.mem_singleton.mpr rfl))
      | some index' =>
          obtain ⟨hIndex, hSame⟩ := List.getElem?_eq_some_iff.mp hBranch
          obtain ⟨hIndex', hSame'⟩ := List.getElem?_eq_some_iff.mp hBranch'
          rw [(hCases.getElem_inj_iff).mp (hSame.trans hSame'.symm)]

end Wiring

namespace Assembled

open Wiring

variable {w : Workflow} {options : TaskOptions} {g : TaskGraph} {plans : List BranchPlan}
  {operators : List Operator} {status : String → Option Outcome}

/-- The chosen dummy is that of the branch taken. -/
theorem branch?_takenCase (h : Assembled w options g plans operators) {plan : BranchPlan}
    (hPlan : plan ∈ plans) : plan.branch? plan.record.takenCase = some plan.chosen := by
  obtain ⟨taken, hPlanned⟩ := h.planned
  obtain ⟨hRecord, -⟩ := TaskGraph.mem_of_recordOf? (hPlanned.recorded plan hPlan)
  obtain ⟨-, d, hFind⟩ := h.transformed.decision_of_passed (hPlanned.passed hPlan)
  obtain ⟨guard, hCross⟩ := h.transformed.crosses_selected hRecord hFind
  unfold BranchPlan.chosen
  cases hTaken : plan.record.takenCase with
  | none => rfl
  | some index =>
      rw [hTaken] at hCross
      have hIndex : ∀ position, some index = some position → position < d.cases.length := by
        rintro _ ⟨⟩
        rcases hCross.inversion hFind with ⟨position, c, hCase, hSame, -⟩ | ⟨hSame, -⟩
        · cases hSame
          exact (List.getElem?_eq_some_iff.mp hCase).1
        · cases hSame
      obtain ⟨id, hId⟩ := hPlanned.exists_dummy h.transformed hPlan hFind hIndex
      have hDummy : plan.dummies[index]? = some id := by
        unfold BranchPlan.dummies
        rw [List.getElem?_append_left (List.getElem?_eq_some_iff.mp hId).1]
        exact hId
      rw [hId]
      show some id = some (plan.dummies[index]?.getD plan.id)
      rw [hDummy]
      rfl

/-- A dummy of a decision is followed exactly when its branch is the one taken. -/
theorem follows_dummy_iff (h : Assembled w options g plans operators) {plan : BranchPlan}
    (hPlan : plan ∈ plans) {caseIndex : Option Nat} {id : String}
    (hBranch : plan.branch? caseIndex = some id) :
    (dummyOperator plan id).Follows operators ↔ plan.record.takenCase = caseIndex := by
  obtain ⟨taken, hPlanned⟩ := h.planned
  obtain ⟨predecessors, hStation⟩ := h.exists_station_of_plan hPlan
  have hChosen := h.branch?_takenCase hPlan
  constructor
  · intro hFollows
    have hSame := hFollows rfl _ hStation.mem (List.mem_singleton.mpr rfl)
    obtain rfl : plan.chosen = id := of_decide_eq_true hSame
    exact BranchPlan.eq_of_branch? (hPlanned.nodup_dummies h.transformed.ids hPlan) hChosen hBranch
  · rintro rfl _ b hMem hId
    obtain rfl : id = plan.chosen := Option.some.inj (hBranch.symm.trans hChosen)
    rw [List.inj_on_of_nodup_map h.wired.distinct hMem hStation.mem (List.mem_singleton.mp hId)]
    simp [branchOperator, Operator.chosen?, dummyOperator]

theorem sender_branch (h : Assembled w options g plans operators) {plan : BranchPlan}
    (hPlan : plan ∈ plans) {step : PassedBranch} (hDecision : plan.record.decision = step.decision)
    {id : String} (hBranch : plan.branch? step.caseIndex = some id) :
    sender plans (.branch step) = .ok id := by
  obtain ⟨taken, hPlanned⟩ := h.planned
  exact sender_of_plan hPlanned.nodup_decisions hPlan hDecision hBranch

/-- The signal of a branch comes only from a branch operator that takes it. -/
theorem taken_of_fired (h : Assembled w options g plans operators)
    (hTriggered : Triggered operators status) {plan : BranchPlan} (hPlan : plan ∈ plans)
    {step : PassedBranch} (hDecision : plan.record.decision = step.decision) {id : String}
    (hBranch : plan.branch? step.caseIndex = some id) (hFired : Fired plans status (.branch step)) :
    status plan.id = some .success ∧ plan.record.takenCase = step.caseIndex := by
  have hDummy := h.wired.dummies plan hPlan id (BranchPlan.mem_dummies_of_branch? hBranch)
  have hSuccess := (fired_branch (h.sender_branch hPlan hDecision hBranch)).mp hFired
  obtain ⟨hHolds, hFollows⟩ := hTriggered _ hDummy hSuccess
  exact ⟨hHolds _ (List.mem_singleton.mpr rfl), (h.follows_dummy_iff hPlan hBranch).mp hFollows⟩

/-- The signal of a branch comes when its branch operator runs and takes that branch. -/
theorem fired_branch_iff (h : Assembled w options g plans operators) (hRun : Run operators status)
    {plan : BranchPlan} (hPlan : plan ∈ plans) {step : PassedBranch}
    (hDecision : plan.record.decision = step.decision) {id : String}
    (hBranch : plan.branch? step.caseIndex = some id) :
    Fired plans status (.branch step) ↔
      (status plan.id).isSome = true ∧ plan.record.takenCase = step.caseIndex := by
  obtain ⟨predecessors, hStation⟩ := h.exists_station_of_plan hPlan
  have hDummy := h.wired.dummies plan hPlan id (BranchPlan.mem_dummies_of_branch? hBranch)
  -- The branch operator succeeds when it runs.
  have hSuccess : status plan.id = some .success ↔ (status plan.id).isSome = true :=
    (hRun.success_iff hStation.mem rfl).trans (hRun.runs _ hStation.mem).symm
  calc Fired plans status (.branch step)
    _ ↔ status id = some .success := fired_branch (h.sender_branch hPlan hDecision hBranch)
    _ ↔ (dummyOperator plan id).Runs operators status := hRun.success_iff hDummy rfl
    _ ↔ status plan.id = some .success ∧ plan.record.takenCase = step.caseIndex :=
      and_congr (by simp [dummyOperator, TriggerRule.Holds]) (h.follows_dummy_iff hPlan hBranch)
    _ ↔ (status plan.id).isSome = true ∧ plan.record.takenCase = step.caseIndex :=
      and_congr_left fun _ => hSuccess

/-- The task of an action has an operator. -/
theorem exists_station_of_action (h : Assembled w options g plans operators) {name : String}
    {a : Action} (hReachable : Workflow.Reachable w.nodes name)
    (hFind : Workflow.find? w.nodes name = some (.action a)) :
    ∃ entries task predecessors,
      Station w g plans operators name entries (taskOperator task predecessors) ∧
      task.id = Task.idOf name ∧ task.source = name ∧ task.body.isKill = false := by
  obtain ⟨task, hTask, rfl⟩ := h.transformed.covered name _ _ hReachable hFind rfl
  obtain ⟨predecessors, hStation⟩ := h.exists_station_of_task hTask
  exact ⟨_, task, predecessors, hStation, (h.transformed.sound task hTask).id, rfl,
    h.transformed.isKill_of_action hTask hFind⟩

/-- In a run without failures, the operator of an action does not fail. -/
theorem exists_unfailed_station (h : Assembled w options g plans operators)
    (hFree : FailureFree operators status) {name : String} {a : Action}
    (hReachable : Workflow.Reachable w.nodes name)
    (hFind : Workflow.find? w.nodes name = some (.action a)) :
    ∃ entries o, Station w g plans operators name entries o ∧ o.id = Task.idOf name ∧
      status o.id ≠ some .failure := by
  obtain ⟨entries, task, predecessors, hStation, hId, -, hAction⟩ :=
    h.exists_station_of_action hReachable hFind
  refine ⟨entries, _, hStation, hId, fun hFailure => ?_⟩
  have hKill : task.body.isKill = true := hFree _ hStation.mem hFailure
  rw [hAction] at hKill
  cases hKill

/-- Where a node runs exactly when control enters it, its signals come in both runs or in none. -/
theorem fired_iff_sends (h : Assembled w options g plans operators) (hRun : Run operators status)
    (hFree : FailureFree operators status) {signal : Signal} {sender : String}
    (hSent : w.SentFrom signal sender)
    (hPassed : ∀ step, signal = .branch step → step.decision ∈ g.passedDecisions)
    (hSender : ∀ {entries o}, Station w g plans operators sender entries o →
      ((status o.id).isSome = true ↔ w.Entered g sender)) :
    Fired plans status signal ↔ w.Sends g signal := by
  cases hSent with
  | success hReachable hFind =>
      obtain ⟨entries, o, hStation, hId, hFailure⟩ :=
        h.exists_unfailed_station hFree hReachable hFind
      have hRuns := (eq_success_iff hFailure).trans (hSender hStation)
      rw [hId] at hRuns
      refine hRuns.trans ⟨fun hEntered => ?_, fun hSends => ?_⟩
      · exact .success hEntered hFind
      · exact hSends.entered_of_success h.transformed hReachable hFind
  | failure hReachable hFind =>
      obtain ⟨entries, o, -, hId, hFailure⟩ := h.exists_unfailed_station hFree hReachable hFind
      rw [hId] at hFailure
      exact ⟨fun hFired => absurd hFired hFailure, fun hSends => by cases hSends⟩
  | @branch step d hReachable hFind hCase =>
      obtain ⟨taken, hPlanned⟩ := h.planned
      obtain ⟨plan, hPlan, hDecision⟩ := hPlanned.exists_plan (hPassed step rfl)
      obtain ⟨id, hBranch⟩ :=
        hPlanned.exists_dummy h.transformed hPlan (hDecision ▸ hFind) hCase
      obtain ⟨predecessors, hStation⟩ := h.exists_station_of_plan hPlan
      obtain ⟨hRecord, -⟩ := TaskGraph.mem_of_recordOf? (hPlanned.recorded plan hPlan)
      have hRuns : (status plan.id).isSome = true ↔ w.Entered g step.decision := by
        rw [hDecision] at hStation
        exact hSender hStation
      rw [h.fired_branch_iff hRun hPlan hDecision hBranch, hRuns]
      constructor
      · rintro ⟨hEntered, hTaken⟩
        exact .branch hEntered hRecord hDecision hTaken
      · intro hSends
        cases hSends with
        | branch hEntered hOther hName hTaken =>
            have hSame := List.inj_on_of_nodup_map h.transformed.recordedOnce hOther hRecord
              (hName.trans hDecision.symm)
            exact ⟨hEntered, hSame ▸ hTaken⟩

/-- Tasks and decisions run exactly when control enters their nodes, by induction on the rank of the
node. -/
theorem runs_iff_entered (h : Assembled w options g plans operators) (hRun : Run operators status)
    (hFree : FailureFree operators status)
    (hApart : ∀ name node, Workflow.find? w.nodes name = some node → node.hasOperator = true →
      w.ThroughForks name → w.OnlyThroughForks name)
    {name : String} {entries : List JoinedSignal} {o : Operator}
    (hStation : Station w g plans operators name entries o) :
    (status o.id).isSome = true ↔ w.Entered g name := by
  obtain ⟨rank, hRank⟩ := h.checked.ranked
  induction hHeight : rank name using Nat.strong_induction_on generalizing name entries o with
  | _ height ih =>
      have hSignals : ∀ {signal : Signal} {join? : Option String},
          w.Brings (some signal) join? name →
          (∀ step, signal = .branch step → step.decision ∈ g.passedDecisions) →
          (Fired plans status signal ↔ w.Sends g signal) := by
        intro signal join? hBrings hPassed
        obtain ⟨sender, hSent, hLeads⟩ := hBrings.exists_sentFrom signal rfl
        have hLower : rank sender < height :=
          hHeight ▸ hRank.lt_of_transGen hSent.reachable hLeads
        exact h.fired_iff_sends hRun hFree hSent hPassed fun hOwn => ih _ hLower hOwn rfl
      constructor
      · intro hRuns
        rcases hStation.fired_of_runs hRun.triggered ((hRun.runs o hStation.mem).mp hRuns) with
          hNone | ⟨e, hEntry, hFired⟩
        · -- Nothing is waited on, so what is brought to the node is no signal.
          obtain ⟨signal?, join?, hBrings⟩ := Workflow.exists_brings hStation.reachable
          refine hBrings.entered h.transformed ?_
          rintro signal rfl
          exact absurd hBrings (hNone ▸ hStation.collects).not_brings
        · have hBrings := hStation.collects.sound e hEntry
          refine hBrings.entered h.transformed ?_
          rintro signal ⟨⟩
          exact (hSignals hBrings (hStation.collects.passed e hEntry)).mp hFired
      · intro hEntered
        apply h.run_of_fired hRun hFree hStation
        rcases hEntered.throughForks_or_sends h.transformed h.checked with
          hThrough | ⟨signal, join?, hBrings, hSends⟩
        · -- No signal is brought to the node at all, so nothing is waited on.
          left
          obtain ⟨node, hFind, hOperator⟩ := hStation.node
          have hOnly := hApart name node hFind hOperator hThrough
          rw [List.eq_nil_iff_forall_not_mem]
          exact fun e hEntry => hOnly.not_brings (hStation.collects.sound e hEntry)
        · right
          obtain ⟨e, hEntry, hCore, -⟩ := hStation.collects.complete signal join? hBrings
          have hPassed : ∀ step, signal = .branch step → step.decision ∈ g.passedDecisions := by
            rintro step rfl
            exact hStation.collects.passed_of_core hEntry hCore
          exact ⟨e, hEntry, fired_of_core hCore.symm ((hSignals hBrings hPassed).mpr hSends)⟩

end Assembled

/-- Where no node name holds a separator and what the start leads to through forks alone is reached
in no other way, a layout without failures runs the tasks of exactly the nodes that control
enters. -/
theorem run_iff_entered {source : String} {w : Workflow} {options : TaskOptions} {g : TaskGraph}
    (hRead : (Workflow.read source).result = .ok w) (hFree : w.SeparatorFree)
    (hApart : ∀ name node, Workflow.find? w.nodes name = some node → node.hasOperator = true →
      w.ThroughForks name → w.OnlyThroughForks name)
    (hGraph : (TaskGraph.ofWorkflow w options).result = .ok g) :
    ∃ operators, g.layout = .ok operators ∧
      (∃ status, Run operators status ∧ FailureFree operators status) ∧
      ∀ status, Run operators status → FailureFree operators status →
        ∀ name, w.OwnsTask name →
          (∃ o ∈ operators, o.id = Task.idOf name ∧ ∃ task, o.task? = some task ∧
            task.source = name) ∧
          ((status (Task.idOf name)).isSome = true ↔ w.Entered g name) := by
  have hChecked := Workflow.checked_of_read hRead
  have hTransformed := Transformed.of_ofWorkflow hChecked hGraph
  obtain ⟨plans, operators, hOperators, hAssembled⟩ := hTransformed.exists_assembled hChecked hFree
  obtain ⟨ordered, hOrdered, hPerm, hInOrder⟩ := hAssembled.exists_order
  refine ⟨ordered, bind_eq_ok_iff.mpr ⟨operators, hOperators, hOrdered⟩, ?_, ?_⟩
  · have hIds : (ordered.map Operator.id).Nodup :=
      (hPerm.map Operator.id).nodup_iff.mpr hAssembled.wired.distinct
    obtain ⟨status, hRun, hOutcome⟩ :=
      Layout.exists_run hInOrder hIds (fun _ => .success) fun _ _ hFailure => by cases hFailure
    exact ⟨status, hRun, fun o hMem hFailure => by cases hOutcome o hMem _ hFailure⟩
  · intro status hRun hFailures name hOwns
    obtain ⟨task, hTask, rfl⟩ := hTransformed.exists_task hOwns
    obtain ⟨predecessors, hStation⟩ := hAssembled.exists_station_of_task hTask
    rw [← (hTransformed.sound task hTask).id]
    constructor
    · exact ⟨_, hPerm.mem_iff.mpr hStation.mem, rfl, task, rfl, rfl⟩
    · exact hAssembled.runs_iff_entered (hRun.of_perm hPerm)
        (fun o hMem => hFailures o (hPerm.mem_iff.mpr hMem)) hApart hStation

/-- In the sample, the start leads through its fork to the action and to the decision. -/
theorem Sample.onlyThroughForks (name : String) (hThrough : Sample.workflow.ThroughForks name) :
    Sample.workflow.OnlyThroughForks name :=
  Workflow.onlyThroughForks_of_closed ["start", "f", "a", "d"] (by decide) (by decide) (by decide)
    hThrough

/-- Control enters the kill of the sample behind the action and the join. -/
theorem Sample.entered_kill : Sample.workflow.Entered Sample.graph "k" := by
  have hFork : Sample.workflow.Entered Sample.graph "f" := Workflow.Entered.start.next rfl
  have hAction : Sample.workflow.Entered Sample.graph "a" := hFork.path rfl List.mem_cons_self
  have hJoin : Sample.workflow.Entered Sample.graph "j" := hAction.ok rfl
  exact hJoin.join rfl

theorem run_iff_entered_kill :
    ∃ operators, Sample.graph.layout = .ok operators ∧
      (∃ status, Run operators status ∧ FailureFree operators status) ∧
      ∀ status, Run operators status → FailureFree operators status →
        (status "k").isSome = true := by
  obtain ⟨operators, hLayout, hRuns, hAll⟩ := run_iff_entered Sample.read_source (by decide)
    (fun name _ _ _ => Sample.onlyThroughForks name) Sample.ofWorkflow_workflow
  refine ⟨operators, hLayout, hRuns, fun status hRun hFree => ?_⟩
  have hTransformed :=
    Transformed.of_ofWorkflow (Workflow.checked_of_read Sample.read_source)
      Sample.ofWorkflow_workflow
  have hReachable := Sample.entered_kill.reachable hTransformed
  exact (hAll status hRun hFree "k" ⟨hReachable, _, rfl, Or.inr rfl⟩).2.mpr Sample.entered_kill

end WorkflowDag
