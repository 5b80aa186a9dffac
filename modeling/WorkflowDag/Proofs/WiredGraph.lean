import WorkflowDag.Proofs.OperatorWiring

/-!
# The operators of a task graph

`Wired` says what the operators of a task graph are: one for each task, one for each decision that a
dependency passes with a dummy for each of its branches, and gates, all with ids of their own and
each with what it waits on.  `exists_wired` gives them for every graph whose dependencies are known:
their decisions have records, and their signals are sent.
-/

namespace WorkflowDag
namespace Wiring

/-- What the operators of a graph are. -/
structure Wired (g : TaskGraph) (plans : List BranchPlan) (operators : List Operator) : Prop where
  distinct : (operators.map Operator.id).Nodup
  made : ∀ o ∈ operators, Made g plans operators o
  tasks : ∀ task ∈ g.tasks, ∃ predecessors, taskOperator task predecessors ∈ operators ∧
    Awaits plans operators (arrivals task.dependencies) predecessors
  branches : ∀ plan ∈ plans, ∃ predecessors, branchOperator g plan predecessors ∈ operators ∧
    Awaits plans operators (Arrival.group (g.signalsInto plan.record.decision)) predecessors
  dummies : ∀ plan ∈ plans, ∀ id ∈ plan.dummies, dummyOperator plan id ∈ operators

/-- What wiring decisions gives, next to the gates that it leaves in the draft. -/
structure BranchesWired (g : TaskGraph) (plans : List BranchPlan) (rest : List BranchPlan)
    (operators gates : List Operator) : Prop where
  made : ∀ o ∈ operators, Made g plans gates o
  branches : ∀ plan ∈ rest, ∃ predecessors, branchOperator g plan predecessors ∈ operators ∧
    Awaits plans gates (Arrival.group (g.signalsInto plan.record.decision)) predecessors
  dummies : ∀ plan ∈ rest, ∀ id ∈ plan.dummies, dummyOperator plan id ∈ operators

section Branches

variable {g : TaskGraph} {plans : List BranchPlan}

theorem wireBranches_grows (rest : List BranchPlan) :
    ∀ {d d' : Draft} {operators : List Operator},
      wireBranches g plans d rest = .ok (operators, d') → d.Grows d' := by
  induction rest with
  | nil =>
      intro d d' operators hWire
      cases hWire
      exact Relation.ReflTransGen.refl
  | cons plan rest ih =>
      intro d d' operators hWire
      obtain ⟨⟨predecessors, d1⟩, hFirst, hWire⟩ := bind_eq_ok_iff.mp hWire
      obtain ⟨⟨others, d2⟩, hOthers, hWire⟩ := bind_eq_ok_iff.mp hWire
      cases hWire
      exact (predecessorsOf_grows hFirst).trans (ih hOthers)

theorem BranchPlan.map_id_operators (plan : BranchPlan) (predecessors : List String)
    (rule : TriggerRule) : (plan.operators predecessors rule).map Operator.id = plan.ids := by
  rw [BranchPlan.operators, List.map_cons, List.map_map]
  exact congrArg (plan.id :: ·) (List.map_id plan.dummies)

/-- Decisions are wired under the ids of their plans. -/
theorem wireBranches_ids (rest : List BranchPlan) :
    ∀ {d d' : Draft} {operators : List Operator},
      wireBranches g plans d rest = .ok (operators, d') →
      operators.map Operator.id = rest.flatMap BranchPlan.ids := by
  induction rest with
  | nil =>
      intro d d' operators hWire
      cases hWire
      rfl
  | cons plan rest ih =>
      intro d d' operators hWire
      obtain ⟨⟨predecessors, d1⟩, hFirst, hWire⟩ := bind_eq_ok_iff.mp hWire
      obtain ⟨⟨others, d2⟩, hOthers, hWire⟩ := bind_eq_ok_iff.mp hWire
      cases hWire
      rw [List.map_append, plan.map_id_operators, ih hOthers, List.flatMap_cons]

/-- The operators of one decision in front of those of others. -/
theorem BranchesWired.cons {rest : List BranchPlan} {plan : BranchPlan} {predecessors : List String}
    {others gates : List Operator} (hPlan : plan ∈ plans)
    (hAwaits : Awaits plans gates (Arrival.group (g.signalsInto plan.record.decision)) predecessors)
    (hOthers : BranchesWired g plans rest others gates) :
    BranchesWired g plans (plan :: rest)
      (plan.operators predecessors (.ofArrivals
        (Arrival.group (g.signalsInto plan.record.decision))) ++ others) gates := by
  have hOwn : plan.operators predecessors (.ofArrivals
      (Arrival.group (g.signalsInto plan.record.decision))) =
      branchOperator g plan predecessors :: plan.dummies.map (dummyOperator plan) := rfl
  rw [hOwn]
  constructor
  · intro o hMem
    rcases List.mem_append.mp hMem with hOwnMem | hOther
    · rcases List.mem_cons.mp hOwnMem with rfl | hDummy
      · exact .branch hPlan hAwaits
      · obtain ⟨id, hId, rfl⟩ := List.mem_map.mp hDummy
        exact .dummy hPlan hId
    · exact hOthers.made o hOther
  · intro other hOther
    rcases List.mem_cons.mp hOther with rfl | hRest
    · exact ⟨predecessors, List.mem_append_left _ List.mem_cons_self, hAwaits⟩
    · obtain ⟨ids, hMem, hIds⟩ := hOthers.branches other hRest
      exact ⟨ids, List.mem_append_right _ hMem, hIds⟩
  · intro other hOther id hId
    rcases List.mem_cons.mp hOther with rfl | hRest
    · exact List.mem_append_left _ (List.mem_cons_of_mem _ (List.mem_map_of_mem hId))
    · exact List.mem_append_right _ (hOthers.dummies other hRest id hId)

theorem wireBranches_spec (rest : List BranchPlan) (hPlans : rest ⊆ plans)
    (hFound : ∀ plan ∈ rest, ∀ arrival ∈ Arrival.group (g.signalsInto plan.record.decision),
      Expected g plans arrival) :
    ∀ {d : Draft}, d.Right g plans → ∃ operators d',
      wireBranches g plans d rest = .ok (operators, d') ∧ d'.Right g plans ∧
        BranchesWired g plans rest operators d'.operators := by
  induction rest with
  | nil =>
      intro d hRight
      refine ⟨[], d, rfl, hRight, ?_, ?_, ?_⟩
      · exact fun _ hMem => absurd hMem List.not_mem_nil
      · exact fun _ hMem => absurd hMem List.not_mem_nil
      · exact fun _ hMem => absurd hMem List.not_mem_nil
  | cons plan rest ih =>
      intro d hRight
      obtain ⟨predecessors, d1, hFirst, hRight1, hAwaits⟩ :=
        predecessorsOf_spec hRight (hFound plan List.mem_cons_self)
      obtain ⟨others, d2, hOthers, hRight2, hWired⟩ :=
        ih (fun _ hMem => hPlans (List.mem_cons_of_mem _ hMem))
          (fun other hMem => hFound other (List.mem_cons_of_mem _ hMem)) hRight1
      have hLater := hAwaits.mono (wireBranches_grows rest hOthers).operators_subset
      refine ⟨_, d2, ?_, hRight2, hWired.cons (hPlans List.mem_cons_self) hLater⟩
      exact bind_eq_ok_iff.mpr
        ⟨(predecessors, d1), hFirst, bind_eq_ok_iff.mpr ⟨(others, d2), hOthers, rfl⟩⟩

end Branches

section Tasks

variable {g : TaskGraph} {plans : List BranchPlan}

/-- The draft with one more operator that is no gate. -/
def Draft.addOperator (d : Draft) (o : Operator) : Draft :=
  { d with operators := d.operators ++ [o] }

theorem Draft.Right.addOperator {d : Draft} {o : Operator} (hRight : d.Right g plans)
    (hMade : Made g plans d.operators o) : (d.addOperator o).Right g plans := by
  have hMore : d.operators ⊆ (d.addOperator o).operators := List.subset_append_left _ _
  constructor
  · intro other hMem
    rcases List.mem_append.mp hMem with hOld | hNew
    · exact (hRight.made other hOld).mono hMore
    · rw [List.mem_singleton.mp hNew]
      exact hMade.mono hMore
  · exact fun task id hMem => (hRight.failures task id hMem).mono hMore
  · exact fun join signals id hJoin hSignals hMem =>
      (hRight.joins join signals id hJoin hSignals hMem).mono hMore

/-- An operator may take an id that was reserved for it. -/
theorem Draft.Distinct.addOperator {reserved : List String} {d : Draft} {o : Operator}
    (hDistinct : d.Distinct (o.id :: reserved)) : (d.addOperator o).Distinct reserved := by
  have hSame : (reserved ++ (d.addOperator o).operators.map Operator.id).Perm
      (o.id :: reserved ++ d.operators.map Operator.id) := by
    have hIds : (d.addOperator o).operators.map Operator.id =
        d.operators.map Operator.id ++ [o.id] := by
      simp [Draft.addOperator]
    rw [hIds, ← List.append_assoc]
    exact List.perm_append_singleton _ _
  constructor
  · intro id hId
    exact hDistinct.taken id (hSame.mem_iff.mp hId)
  · exact hSame.nodup_iff.mpr hDistinct.nodup

theorem wireTasks_distinct (tasks : List Task) {reserved : List String} :
    ∀ {d d' : Draft}, wireTasks plans d tasks = .ok d' →
      d.Distinct (tasks.map Task.id ++ reserved) → d'.Distinct reserved := by
  induction tasks with
  | nil =>
      intro d d' hWire hDistinct
      cases hWire
      exact hDistinct
  | cons task rest ih =>
      intro d d' hWire hDistinct
      obtain ⟨⟨predecessors, d1⟩, hFirst, hWire⟩ := bind_eq_ok_iff.mp hWire
      have hLater := (predecessorsOf_grows hFirst).distinct hDistinct
      exact ih hWire (Draft.Distinct.addOperator (o := taskOperator task predecessors) hLater)

/-- Wiring tasks succeeds when their signals are sent, and gives each of them its operator. -/
theorem wireTasks_spec (tasks : List Task) (hTasks : tasks ⊆ g.tasks)
    (hFound : ∀ task ∈ tasks, ∀ arrival ∈ arrivals task.dependencies, Expected g plans arrival) :
    ∀ {d : Draft}, d.Right g plans → ∃ d', wireTasks plans d tasks = .ok d' ∧
      d'.Right g plans ∧ d.operators ⊆ d'.operators ∧
      ∀ task ∈ tasks, ∃ predecessors, taskOperator task predecessors ∈ d'.operators ∧
        Awaits plans d'.operators (arrivals task.dependencies) predecessors := by
  induction tasks with
  | nil =>
      exact fun {d} hRight => ⟨d, rfl, hRight, List.Subset.refl _,
        fun _ hMem => absurd hMem List.not_mem_nil⟩
  | cons task rest ih =>
      intro d hRight
      obtain ⟨predecessors, d1, hFirst, hRight1, hAwaits⟩ :=
        predecessorsOf_spec hRight (hFound task List.mem_cons_self)
      have hMade : Made g plans d1.operators (taskOperator task predecessors) :=
        .task (hTasks List.mem_cons_self) hAwaits
      obtain ⟨d2, hRest, hRight2, hMore, hOthers⟩ :=
        ih (fun _ hMem => hTasks (List.mem_cons_of_mem _ hMem))
          (fun other hMem => hFound other (List.mem_cons_of_mem _ hMem))
          (hRight1.addOperator hMade)
      have hGrown : d1.operators ⊆ d2.operators :=
        List.Subset.trans (List.subset_append_left _ _) hMore
      refine ⟨d2, bind_eq_ok_iff.mpr ⟨(predecessors, d1), hFirst, hRest⟩, hRight2, ?_, ?_⟩
      · exact List.Subset.trans (predecessorsOf_grows hFirst).operators_subset hGrown
      · intro other hOther
        rcases List.mem_cons.mp hOther with rfl | hMem
        · refine ⟨predecessors, hMore ?_, hAwaits.mono hGrown⟩
          exact List.mem_append_right _ (List.mem_singleton.mpr rfl)
        · exact hOthers other hMem

end Tasks

/-- What the wiring of a graph relies on. -/
structure Wireable (g : TaskGraph) (plans : List BranchPlan) : Prop where
  intoBranches : ∀ plan ∈ plans, ∀ arrival ∈ Arrival.group (g.signalsInto plan.record.decision),
    Expected g plans arrival
  intoTasks : ∀ task ∈ g.tasks, ∀ arrival ∈ arrivals task.dependencies, Expected g plans arrival

/-- Operators that have been wired have ids of their own. -/
theorem distinct_of_wiring {g : TaskGraph} {plans : List BranchPlan} {taken : List String}
    {branches : List Operator} {d d' : Draft} (hIds : (g.tasks.map Task.id).Nodup)
    (hPlans : planBranches g (g.tasks.map Task.id) g.passedDecisions = .ok (plans, taken))
    (hBranches : wireBranches g plans { taken } plans = .ok (branches, d))
    (hTasks : wireTasks plans d g.tasks = .ok d') :
    ((branches ++ d'.operators).map Operator.id).Nodup := by
  have hPlanned := planBranches_spec _ hPlans
  -- Ids of tasks and of decisions are taken before any gate is made.
  have hReserved : Draft.Distinct (g.tasks.map Task.id ++ plans.flatMap BranchPlan.ids)
      { taken } := by
    have hSame : (g.tasks.map Task.id ++ plans.flatMap BranchPlan.ids).Perm taken := by
      rw [hPlanned.takes]
      exact List.perm_append_comm.trans ((List.reverse_perm _).symm.append_right _)
    constructor
    · intro id hId
      rw [List.map_nil, List.append_nil] at hId
      exact hSame.mem_iff.mp hId
    · rw [List.map_nil, List.append_nil]
      exact hSame.nodup_iff.mpr (hPlanned.distinct hIds)
  have hDistinct := wireTasks_distinct g.tasks hTasks
    ((wireBranches_grows plans hBranches).distinct hReserved)
  rw [List.map_append, wireBranches_ids plans hBranches]
  exact hDistinct.nodup

/-- A graph with a plan for its decisions and with signals that are sent has operators. -/
theorem exists_wired {g : TaskGraph} {plans : List BranchPlan} {taken : List String}
    (hIds : (g.tasks.map Task.id).Nodup)
    (hPlans : planBranches g (g.tasks.map Task.id) g.passedDecisions = .ok (plans, taken))
    (hWireable : Wireable g plans) :
    ∃ operators, g.operators = .ok operators ∧ Wired g plans operators := by
  have hEmpty : Draft.Right g plans { taken } :=
    ⟨fun _ hMem => absurd hMem List.not_mem_nil, fun _ _ hMem => absurd hMem List.not_mem_nil,
      fun _ _ _ _ _ hMem => absurd hMem List.not_mem_nil⟩
  obtain ⟨branches, d, hBranches, hRight, hWired⟩ :=
    wireBranches_spec plans (List.Subset.refl _) hWireable.intoBranches hEmpty
  obtain ⟨d', hTasks, hRight', hMore, hOwn⟩ :=
    wireTasks_spec g.tasks (List.Subset.refl _) hWireable.intoTasks hRight
  -- Gates made for decisions are in the draft that tasks are wired in, so they stay.
  have hFinal : d'.operators ⊆ branches ++ d'.operators := List.subset_append_right _ _
  refine ⟨branches ++ d'.operators, ?_, ?_, ?_, ?_, ?_, ?_⟩
  · exact bind_eq_ok_iff.mpr ⟨(plans, taken), hPlans,
      bind_eq_ok_iff.mpr ⟨(branches, d), hBranches, bind_eq_ok_iff.mpr ⟨d', hTasks, rfl⟩⟩⟩
  · exact distinct_of_wiring hIds hPlans hBranches hTasks
  · intro o hMem
    rcases List.mem_append.mp hMem with hBranch | hOther
    · exact (hWired.made o hBranch).mono (List.Subset.trans hMore hFinal)
    · exact (hRight'.made o hOther).mono hFinal
  · intro task hTask
    obtain ⟨predecessors, hMem, hAwaits⟩ := hOwn task hTask
    exact ⟨predecessors, hFinal hMem, hAwaits.mono hFinal⟩
  · intro plan hPlan
    obtain ⟨predecessors, hMem, hAwaits⟩ := hWired.branches plan hPlan
    exact ⟨predecessors, List.mem_append_left _ hMem,
      hAwaits.mono (List.Subset.trans hMore hFinal)⟩
  · exact fun plan hPlan id hId => List.mem_append_left _ (hWired.dummies plan hPlan id hId)

end Wiring
end WorkflowDag
