import WorkflowDag.Proofs.GraphSignals
import WorkflowDag.Proofs.LayoutOrder

/-!
# Every transformed workflow has a layout

The check for cycles is one of the nodes of a workflow; the operators of its graph are others.  All
ways through a decision meet in one branch operator, and gates are shared.  What carries over is the
rank of nodes: a task or a decision waits on signals from nodes of a lower rank only, and gates and
dummies lie between (`Assembled.grounded_station`).

Main statement: where no node name holds a separator, the layout of a graph exists, it waits on
nothing but its own operators, and no operator waits on itself (`layout_exists`).
-/

namespace WorkflowDag

/-- The node is an action, a kill or a decision. -/
def Node.hasOperator : Node → Bool
  | .action _ => true
  | .kill _ _ => true
  | .decision _ => true
  | _ => false

namespace Wiring

/-- Everything the operator of that id waits on, directly or not, is an operator. -/
inductive Grounded (operators : List Operator) : String → Prop
  | intro {o : Operator} (hMem : o ∈ operators)
      (hBefore : ∀ id ∈ o.predecessors, Grounded operators id) : Grounded operators o.id

theorem Grounded.exists_operator {operators : List Operator} {id : String}
    (hGrounded : Grounded operators id) : ∃ o ∈ operators, o.id = id := by
  cases hGrounded with
  | intro hMem hBefore => exact ⟨_, hMem, rfl⟩

/-- With distinct ids, what a grounded operator waits on is grounded. -/
theorem Grounded.before {operators : List Operator} (hIds : (operators.map Operator.id).Nodup)
    {o : Operator} (hMem : o ∈ operators) (hGrounded : Grounded operators o.id) :
    ∀ id ∈ o.predecessors, Grounded operators id := by
  generalize hId : o.id = name at hGrounded
  cases hGrounded with
  | @intro other hOther hBefore =>
      rw [List.inj_on_of_nodup_map hIds hMem hOther hId]
      exact hBefore

theorem Grounded.acc {operators : List Operator} (hIds : (operators.map Operator.id).Nodup)
    {id : String} (hGrounded : Grounded operators id) : Acc (Layout.Precedes operators) id := by
  induction hGrounded with
  | @intro o hMem _ ih =>
      constructor
      rintro before ⟨other, hOther, hId, hBefore⟩
      rw [List.inj_on_of_nodup_map hIds hOther hMem hId] at hBefore
      exact ih before hBefore

section Grounding

variable {plans : List BranchPlan} {operators : List Operator}

/-- What sends the signal is grounded. -/
def SenderGrounded (plans : List BranchPlan) (operators : List Operator) (signal : Signal) : Prop :=
  ∀ id, sender plans signal = .ok id → Grounded operators id

theorem Relays.grounded {signal : Signal} {id : String} (hRelays : Relays plans operators signal id)
    (hSender : SenderGrounded plans operators signal) : Grounded operators id := by
  cases signal with
  | success task => exact hSender id hRelays
  | failure task =>
      refine Grounded.intro hRelays fun before hBefore => ?_
      rw [List.mem_singleton.mp hBefore]
      exact hSender task rfl
  | branch step => exact hSender id hRelays

theorem grounded_of_relays {signals : List Signal} {ids : List String}
    (hRelays : List.Forall₂ (Relays plans operators) signals ids)
    (hSenders : ∀ signal ∈ signals, SenderGrounded plans operators signal) :
    ∀ id ∈ ids.eraseDups, Grounded operators id := by
  intro id hId
  obtain ⟨signal, hSignal, hRelay⟩ :=
    exists_mem_left_of_forall₂ hRelays (List.mem_eraseDups.mp hId)
  exact hRelay.grounded (hSenders signal hSignal)

theorem Gates.grounded {signals : List Signal} {id : String}
    (hGates : Gates plans operators signals id)
    (hSenders : ∀ signal ∈ signals, SenderGrounded plans operators signal) :
    Grounded operators id := by
  obtain ⟨ids, hRelays, hGate⟩ := hGates
  exact Grounded.intro hGate (grounded_of_relays hRelays hSenders)

theorem Enters.grounded {arrival : Arrival} {id : String}
    (hEnters : Enters plans operators arrival id)
    (hSenders : ∀ signal ∈ arrival.signals, SenderGrounded plans operators signal) :
    Grounded operators id := by
  rcases hEnters with ⟨signal, hSignals, hRelays⟩ | hGates
  · exact hRelays.grounded (hSenders signal (hSignals ▸ List.mem_singleton.mpr rfl))
  · exact hGates.grounded hSenders

/-- What an operator waits on is grounded when the senders of its signals are. -/
theorem Awaits.grounded {found : List Arrival} {ids : List String}
    (hAwaits : Awaits plans operators found ids)
    (hSenders : ∀ arrival ∈ found, ∀ signal ∈ arrival.signals,
      SenderGrounded plans operators signal) :
    ∀ id ∈ ids, Grounded operators id := by
  cases hAwaits with
  | failures hRule hAll =>
      intro id hId
      obtain ⟨signal, hSignal, hSender⟩ :=
        exists_mem_left_of_forall₂ hAll (List.mem_eraseDups.mp hId)
      obtain ⟨arrival, hArrival, hSignal⟩ := List.mem_flatMap.mp hSignal
      exact hSenders arrival hArrival signal hSignal id hSender
  | single hRule hAll =>
      exact grounded_of_relays hAll (hSenders _ (List.mem_singleton.mpr rfl))
  | several hRule hFound hAll =>
      intro id hId
      obtain ⟨arrival, hArrival, hEnters⟩ :=
        exists_mem_left_of_forall₂ hAll (List.mem_eraseDups.mp hId)
      exact hEnters.grounded (hSenders arrival hArrival)

end Grounding

/-- The operator of a task or of a decision, with what control paths bring to the node. -/
structure Station (w : Workflow) (g : TaskGraph) (plans : List BranchPlan)
    (operators : List Operator) (name : String) (entries : List JoinedSignal) (o : Operator) :
    Prop where
  mem : o ∈ operators
  body : o.body ≠ .dummy
  node : ∃ node, Workflow.find? w.nodes name = some node ∧ node.hasOperator = true
  reachable : Workflow.Reachable w.nodes name
  collects : Collects w g name entries
  rule : o.triggerRule = .ofArrivals (Arrival.group entries)
  awaits : Awaits plans operators (Arrival.group entries) o.predecessors

end Wiring

namespace Assembled

open Wiring

variable {w : Workflow} {options : TaskOptions} {g : TaskGraph} {plans : List BranchPlan}
  {operators : List Operator}

theorem station_task (h : Assembled w options g plans operators) {task : Task}
    {predecessors : List String} (hTask : task ∈ g.tasks)
    (hMem : taskOperator task predecessors ∈ operators)
    (hAwaits : Awaits plans operators (arrivals task.dependencies) predecessors) :
    Station w g plans operators task.source (joinedSignals task.dependencies)
      (taskOperator task predecessors) := by
  have hSound := h.transformed.sound task hTask
  obtain ⟨node, owner, hFind, hOwner, -⟩ := hSound.owned
  have hNode : node.hasOperator = true := by
    cases node with
    | action a => rfl
    | kill killName message => rfl
    | start target => cases hOwner
    | decision d => rfl
    | fork f => cases hOwner
    | join joinName target => cases hOwner
    | finish endName => cases hOwner
  exact ⟨hMem, nofun, ⟨node, hFind, hNode⟩, hSound.reachable,
    h.transformed.collects_task h.checked h.free.separableNames hTask, rfl, hAwaits⟩

theorem station_branch (h : Assembled w options g plans operators) {plan : BranchPlan}
    {predecessors : List String} (hPlan : plan ∈ plans)
    (hMem : branchOperator g plan predecessors ∈ operators)
    (hAwaits : Awaits plans operators (Arrival.group (g.signalsInto plan.record.decision))
      predecessors) :
    Station w g plans operators plan.record.decision (g.signalsInto plan.record.decision)
      (branchOperator g plan predecessors) := by
  obtain ⟨taken, hPlanned⟩ := h.planned
  have hPassed := hPlanned.passed hPlan
  obtain ⟨hReachable, d, hFind⟩ := h.transformed.decision_of_passed hPassed
  exact ⟨hMem, nofun, ⟨_, hFind, rfl⟩, hReachable,
    h.transformed.collects_decision h.checked h.free.separableNames hPassed, rfl, hAwaits⟩

theorem exists_station_of_task (h : Assembled w options g plans operators) {task : Task}
    (hTask : task ∈ g.tasks) :
    ∃ predecessors, Station w g plans operators task.source (joinedSignals task.dependencies)
      (taskOperator task predecessors) := by
  obtain ⟨predecessors, hMem, hAwaits⟩ := h.wired.tasks task hTask
  exact ⟨predecessors, h.station_task hTask hMem hAwaits⟩

theorem exists_station_of_plan (h : Assembled w options g plans operators) {plan : BranchPlan}
    (hPlan : plan ∈ plans) :
    ∃ predecessors, Station w g plans operators plan.record.decision
      (g.signalsInto plan.record.decision) (branchOperator g plan predecessors) := by
  obtain ⟨predecessors, hMem, hAwaits⟩ := h.wired.branches plan hPlan
  exact ⟨predecessors, h.station_branch hPlan hMem hAwaits⟩

/-- An outcome is sent by its task, and a branch by a dummy right behind the branch operator. -/
theorem senderGrounded (h : Assembled w options g plans operators) {signal : Signal}
    (hTask : ∀ task, signal = .success task ∨ signal = .failure task → Grounded operators task)
    (hPlan : ∀ step, signal = .branch step → ∀ plan ∈ plans,
      plan.record.decision = step.decision → Grounded operators plan.id) :
    SenderGrounded plans operators signal := by
  intro id hSender
  cases signal with
  | success task =>
      cases hSender
      exact hTask _ (Or.inl rfl)
  | failure task =>
      cases hSender
      exact hTask _ (Or.inr rfl)
  | branch step =>
      obtain ⟨plan, hMem, hDecision, hBranch⟩ := exists_plan_of_sender hSender
      have hDummy := h.wired.dummies plan hMem id (BranchPlan.mem_dummies_of_branch? hBranch)
      refine Grounded.intro hDummy fun before hBefore => ?_
      rw [List.mem_singleton.mp hBefore]
      exact hPlan step rfl plan hMem hDecision

/-- The operators of tasks and of decisions are grounded, by induction on the rank of the node. -/
theorem grounded_station (h : Assembled w options g plans operators) {name : String}
    {entries : List JoinedSignal} {o : Operator}
    (hStation : Station w g plans operators name entries o) : Grounded operators o.id := by
  obtain ⟨rank, hRank⟩ := h.checked.ranked
  induction hHeight : rank name using Nat.strong_induction_on generalizing name entries o with
  | _ height ih =>
      refine Grounded.intro hStation.mem (hStation.awaits.grounded ?_)
      intro arrival hArrival signal hSignal
      have hEntry := Arrival.mem_of_mem_group hArrival hSignal
      obtain ⟨sender, hSent, hLeads⟩ :=
        (hStation.collects.sound _ hEntry).exists_sentFrom signal rfl
      have hLower : rank sender < height :=
        hHeight ▸ hRank.lt_of_transGen hSent.reachable hLeads
      -- However many ways meet in the sender, its own rank is all that counts.
      apply h.senderGrounded
      · intro task hSignal
        obtain ⟨rfl, a, hFind⟩ := hSent.exists_action hSignal
        obtain ⟨own, hOwn, rfl⟩ := h.transformed.covered sender _ _ hSent.reachable hFind rfl
        obtain ⟨predecessors, hStation⟩ := h.exists_station_of_task hOwn
        rw [← (h.transformed.sound own hOwn).id]
        exact ih _ hLower hStation rfl
      · rintro step rfl plan hPlan hDecision
        obtain ⟨predecessors, hOwn⟩ := h.exists_station_of_plan hPlan
        cases hSent with
        | branch hReachable hFind hCase => exact ih _ (hDecision ▸ hLower) hOwn rfl

/-- Every operator is grounded: what is neither a task nor a decision waits on these only. -/
theorem grounded_of_mem (h : Assembled w options g plans operators) {o : Operator}
    (hMem : o ∈ operators) : Grounded operators o.id := by
  have hTasks : ∀ task ∈ g.tasks, Grounded operators task.id := by
    intro task hTask
    obtain ⟨predecessors, hStation⟩ := h.exists_station_of_task hTask
    exact h.grounded_station hStation
  have hPlans : ∀ plan ∈ plans, Grounded operators plan.id := by
    intro plan hPlan
    obtain ⟨predecessors, hStation⟩ := h.exists_station_of_plan hPlan
    exact h.grounded_station hStation
  have hSenders : ∀ signal, Sent g plans signal → SenderGrounded plans operators signal := by
    intro signal hSent
    apply h.senderGrounded
    · intro task hSignal
      obtain ⟨t, ht, rfl, -⟩ := hSent.task task hSignal
      exact hTasks t ht
    · exact fun step _ plan hPlan _ => hPlans plan hPlan
  have hMade := h.wired.made o hMem
  cases hMade with
  | task hTask hAwaits => exact hTasks _ hTask
  | branch hPlan hAwaits => exact hPlans _ hPlan
  | dummy hPlan hId =>
      refine Grounded.intro hMem fun before hBefore => ?_
      rw [List.mem_singleton.mp hBefore]
      exact hPlans _ hPlan
  | failure hSent =>
      refine Grounded.intro hMem fun before hBefore => ?_
      rw [List.mem_singleton.mp hBefore]
      exact hSenders _ hSent _ rfl
  | join hSent hRelays =>
      exact Grounded.intro hMem
        (grounded_of_relays hRelays fun signal hSignal => hSenders signal (hSent signal hSignal))

/-- Operators wait on operators. -/
theorem exists_before (h : Assembled w options g plans operators) {o : Operator}
    (hMem : o ∈ operators) {id : String} (hBefore : id ∈ o.predecessors) :
    ∃ other ∈ operators, other.id = id :=
  ((h.grounded_of_mem hMem).before h.wired.distinct hMem id hBefore).exists_operator

/-- No operator waits on itself. -/
theorem acyclic (h : Assembled w options g plans operators) (id : String) :
    ¬Relation.TransGen (Layout.Precedes operators) id id := by
  intro hSelf
  obtain ⟨before, -, o, hMem, rfl, -⟩ := Relation.TransGen.tail'_iff.mp hSelf
  exact Layout.not_transGen_self ((h.grounded_of_mem hMem).acc h.wired.distinct) hSelf

/-- The operators can be ordered. -/
theorem exists_order (h : Assembled w options g plans operators) :
    ∃ ordered, Layout.order operators = .ok ordered ∧ ordered.Perm operators ∧
      Layout.InOrder [] ordered :=
  Layout.exists_order h.wired.distinct (fun _ hMem _ hBefore => h.exists_before hMem hBefore)
    fun _ hMem => (h.grounded_of_mem hMem).acc h.wired.distinct

end Assembled

/-- Where no node name holds a separator, the operators of a transformed workflow have a layout:
each waits on operators of the layout only, and none waits on itself, directly or through others. -/
theorem layout_exists {source : String} {w : Workflow} {options : TaskOptions} {g : TaskGraph}
    (hRead : (Workflow.read source).result = .ok w) (hFree : w.SeparatorFree)
    (hGraph : (TaskGraph.ofWorkflow w options).result = .ok g) :
    ∃ operators ordered, g.operators = .ok operators ∧ g.layout = .ok ordered ∧
      ordered.Perm operators ∧
      (∀ o ∈ ordered, ∀ id ∈ o.predecessors, ∃ other ∈ ordered, other.id = id) ∧
      ∀ id, ¬Relation.TransGen (Layout.Precedes ordered) id id := by
  have hChecked := Workflow.checked_of_read hRead
  have hTransformed := Transformed.of_ofWorkflow hChecked hGraph
  obtain ⟨plans, operators, hOperators, hAssembled⟩ := hTransformed.exists_assembled hChecked hFree
  obtain ⟨ordered, hOrdered, hPerm, -⟩ := hAssembled.exists_order
  refine ⟨operators, ordered, hOperators, ?_, hPerm, ?_, ?_⟩
  · exact bind_eq_ok_iff.mpr ⟨operators, hOperators, hOrdered⟩
  · intro o hMem id hBefore
    obtain ⟨other, hOther, hId⟩ := hAssembled.exists_before (hPerm.mem_iff.mp hMem) hBefore
    exact ⟨other, hPerm.mem_iff.mpr hOther, hId⟩
  · intro id hSelf
    apply hAssembled.acyclic id
    refine Relation.TransGen.mono ?_ _ _ hSelf
    rintro before after ⟨o, hMem, hId, hBefore⟩
    exact ⟨o, hPerm.mem_iff.mp hMem, hId, hBefore⟩

theorem layout_exists_sample :
    ∃ operators ordered, Sample.graph.operators = .ok operators ∧
      Sample.graph.layout = .ok ordered ∧ ordered.Perm operators ∧
      (∀ o ∈ ordered, ∀ id ∈ o.predecessors, ∃ other ∈ ordered, other.id = id) ∧
      ∀ id, ¬Relation.TransGen (Layout.Precedes ordered) id id :=
  layout_exists Sample.read_source (by decide) Sample.ofWorkflow_workflow

end WorkflowDag
