import WorkflowDag.Proofs.FailureFreeRun

/-!
# Operators that wait on nothing

Control that comes from the start through forks alone is no signal, so an operator waits on it only
as long as nothing else leads to its node: with other arrivals it waits on these, as if the start
did not lead to it.

What an operator waits on is read off the wiring (`HeedsArrivals`), whatever the names of nodes are:
it waits on nothing exactly when it has no arrivals.  Main statement: the operator of a node waits
on nothing exactly when all ways from the start to the node lead through forks alone
(`waits_on_nothing_iff`).  Where another way leads to the node as well, the edge from the start is
lost (`start_edge_lost`).
-/

namespace WorkflowDag

/-- The operator waits on nothing: it runs as soon as the DAG does. -/
def Operator.WaitsOnNothing (o : Operator) : Prop :=
  o.predecessors = [] ∧ o.triggerRule = .allSuccess

namespace Wiring

section Lengths

variable {plans : List BranchPlan}

theorem senders_length (signals : List Signal) :
    ∀ {ids : List String}, senders plans signals = .ok ids → ids.length = signals.length := by
  induction signals with
  | nil =>
      intro ids hIds
      cases hIds
      rfl
  | cons signal rest ih =>
      intro ids hIds
      obtain ⟨id, -, hIds⟩ := bind_eq_ok_iff.mp hIds
      obtain ⟨others, hOthers, hIds⟩ := bind_eq_ok_iff.mp hIds
      cases hIds
      rw [List.length_cons, List.length_cons, ih hOthers]

theorem relays_length (signals : List Signal) :
    ∀ {d d' : Draft} {ids : List String}, relays plans d signals = .ok (ids, d') →
      ids.length = signals.length := by
  induction signals with
  | nil =>
      intro d d' ids hRelays
      cases hRelays
      rfl
  | cons signal rest ih =>
      intro d d' ids hRelays
      obtain ⟨⟨id, d1⟩, -, hRelays⟩ := bind_eq_ok_iff.mp hRelays
      obtain ⟨⟨others, d2⟩, hOthers, hRelays⟩ := bind_eq_ok_iff.mp hRelays
      cases hRelays
      rw [List.length_cons, List.length_cons, ih hOthers]

theorem entrances_length (found : List Arrival) :
    ∀ {d d' : Draft} {ids : List String}, entrances plans d found = .ok (ids, d') →
      ids.length = found.length := by
  induction found with
  | nil =>
      intro d d' ids hEntrances
      cases hEntrances
      rfl
  | cons arrival rest ih =>
      intro d d' ids hEntrances
      obtain ⟨⟨id, d1⟩, -, hEntrances⟩ := bind_eq_ok_iff.mp hEntrances
      obtain ⟨⟨others, d2⟩, hOthers, hEntrances⟩ := bind_eq_ok_iff.mp hEntrances
      cases hEntrances
      rw [List.length_cons, List.length_cons, ih hOthers]

end Lengths

theorem eraseDups_eq_nil_iff {ids : List String} : ids.eraseDups = [] ↔ ids.length = 0 := by
  cases ids with
  | nil => exact iff_of_true rfl rfl
  | cons id rest =>
      rw [List.eraseDups_cons]
      exact iff_of_false (List.cons_ne_nil _ _) (Nat.succ_ne_zero _)

/-- What an operator waits on is nothing exactly when it has no arrivals. -/
theorem predecessorsOf_eq_nil_iff {plans : List BranchPlan} {d d' : Draft} {found : List Arrival}
    {ids : List String} (hSignals : ∀ arrival ∈ found, arrival.signals ≠ [])
    (hIds : predecessorsOf plans d found = .ok (ids, d')) : ids = [] ↔ found = [] := by
  unfold predecessorsOf at hIds
  split at hIds
  next hRule =>
    obtain ⟨senderIds, hSenders, hSame⟩ := map_eq_ok_iff.mp hIds
    cases hSame
    rw [eraseDups_eq_nil_iff, senders_length _ hSenders, List.length_eq_zero_iff,
      List.flatMap_eq_nil_iff]
    constructor
    · intro hNone
      rw [List.eq_nil_iff_forall_not_mem]
      exact fun arrival hArrival => hSignals arrival hArrival (hNone arrival hArrival)
    · rintro rfl
      exact fun _ hArrival => absurd hArrival List.not_mem_nil
  next hRule =>
    split at hIds
    next only =>
      obtain ⟨⟨relayIds, d1⟩, hRelays, hSame⟩ := map_eq_ok_iff.mp hIds
      cases hSame
      have hOnly := hSignals only (List.mem_singleton.mpr rfl)
      rw [eraseDups_eq_nil_iff, relays_length _ hRelays, List.length_eq_zero_iff]
      exact iff_of_false hOnly (List.cons_ne_nil _ _)
    next hSeveral =>
      obtain ⟨⟨entranceIds, d1⟩, hEntrances, hSame⟩ := map_eq_ok_iff.mp hIds
      cases hSame
      rw [eraseDups_eq_nil_iff, entrances_length _ hEntrances, List.length_eq_zero_iff]

/-- The operator waits as the signals ask, and on nothing when there are none. -/
structure Heeds (entries : List JoinedSignal) (o : Operator) : Prop where
  rule : o.triggerRule = .ofArrivals (Arrival.group entries)
  awaited : o.predecessors = [] ↔ Arrival.group entries = []

theorem Heeds.waitsOnNothing_iff {entries : List JoinedSignal} {o : Operator}
    (hHeeds : Heeds entries o) : o.WaitsOnNothing ↔ entries = [] := by
  rw [← Arrival.group_eq_nil_iff]
  constructor
  · exact fun hNothing => hHeeds.awaited.mp hNothing.1
  · intro hNone
    refine ⟨hHeeds.awaited.mpr hNone, ?_⟩
    rw [hHeeds.rule, hNone]
    rfl

/-- An operator with the ids found for some signals heeds them. -/
theorem heeds_of_predecessorsOf {plans : List BranchPlan} {d d' : Draft}
    {entries : List JoinedSignal} {o : Operator}
    (hIds : predecessorsOf plans d (Arrival.group entries) = .ok (o.predecessors, d'))
    (hRule : o.triggerRule = .ofArrivals (Arrival.group entries)) : Heeds entries o :=
  ⟨hRule, predecessorsOf_eq_nil_iff (fun _ => Arrival.signals_ne_nil_of_mem_group) hIds⟩

/-- The operator of a task or of a decision heeds the signals that lead there. -/
structure HeedsArrivals (g : TaskGraph) (o : Operator) : Prop where
  task : ∀ task, o.task? = some task → task ∈ g.tasks ∧ Heeds (joinedSignals task.dependencies) o
  decision : ∀ decision, o.decision? = some decision →
    decision ∈ g.passedDecisions ∧ Heeds (g.signalsInto decision) o

section Heeding

variable {g : TaskGraph} {plans : List BranchPlan}

theorem HeedsArrivals.of_dummy {o : Operator} (hBody : o.body = .dummy) : HeedsArrivals g o := by
  constructor
  · intro task hTask
    rw [Operator.task?, hBody] at hTask
    cases hTask
  · intro decision hDecision
    rw [Operator.decision?, hBody] at hDecision
    cases hDecision

/-- Gates stand neither for tasks nor for decisions. -/
theorem Draft.Grows.heedsArrivals {d d' : Draft} (hGrows : d.Grows d')
    (hHeeds : ∀ o ∈ d.operators, HeedsArrivals g o) : ∀ o ∈ d'.operators, HeedsArrivals g o := by
  induction hGrows with
  | refl => exact hHeeds
  | tail _ hStep ih =>
      obtain ⟨key, base, predecessors, rule, -, rfl⟩ := hStep
      intro o hMem
      rcases List.mem_append.mp hMem with hOld | hNew
      · exact ih o hOld
      · rw [List.mem_singleton.mp hNew]
        exact .of_dummy rfl

theorem wireBranches_heedsArrivals (rest : List BranchPlan)
    (hPassed : ∀ plan ∈ rest, plan.record.decision ∈ g.passedDecisions) :
    ∀ {d d' : Draft} {operators : List Operator},
      wireBranches g plans d rest = .ok (operators, d') →
      ∀ o ∈ operators, HeedsArrivals g o := by
  induction rest with
  | nil =>
      intro d d' operators hWire
      cases hWire
      exact fun _ hMem => absurd hMem List.not_mem_nil
  | cons plan rest ih =>
      intro d d' operators hWire o hMem
      obtain ⟨⟨predecessors, d1⟩, hFirst, hWire⟩ := bind_eq_ok_iff.mp hWire
      obtain ⟨⟨others, d2⟩, hOthers, hWire⟩ := bind_eq_ok_iff.mp hWire
      cases hWire
      rcases List.mem_append.mp hMem with hOwn | hOther
      · rcases List.mem_cons.mp hOwn with rfl | hDummy
        · refine ⟨fun _ hTask => (by cases hTask), ?_⟩
          rintro _ ⟨⟩
          exact ⟨hPassed plan List.mem_cons_self, heeds_of_predecessorsOf hFirst rfl⟩
        · obtain ⟨id, -, rfl⟩ := List.mem_map.mp hDummy
          exact .of_dummy rfl
      · exact ih (fun plan hPlan => hPassed plan (List.mem_cons_of_mem _ hPlan)) hOthers o hOther

theorem wireTasks_heedsArrivals (tasks : List Task) (hTasks : tasks ⊆ g.tasks) :
    ∀ {d d' : Draft}, wireTasks plans d tasks = .ok d' →
      (∀ o ∈ d.operators, HeedsArrivals g o) → ∀ o ∈ d'.operators, HeedsArrivals g o := by
  induction tasks with
  | nil =>
      intro d d' hWire hHeeds
      cases hWire
      exact hHeeds
  | cons task rest ih =>
      intro d d' hWire hHeeds
      obtain ⟨⟨predecessors, d1⟩, hFirst, hWire⟩ := bind_eq_ok_iff.mp hWire
      have hGates := (predecessorsOf_grows hFirst).heedsArrivals hHeeds
      refine ih (fun _ hMem => hTasks (List.mem_cons_of_mem _ hMem)) hWire ?_
      intro o hMem
      rcases List.mem_append.mp hMem with hOld | hNew
      · exact hGates o hOld
      · rw [List.mem_singleton.mp hNew]
        refine ⟨?_, fun _ hDecision => by cases hDecision⟩
        rintro _ ⟨⟩
        exact ⟨hTasks List.mem_cons_self, heeds_of_predecessorsOf hFirst rfl⟩

/-- Wiring keeps the operators that are there and makes one for each task. -/
theorem wireTasks_operators (tasks : List Task) :
    ∀ {d d' : Draft}, wireTasks plans d tasks = .ok d' →
      d.operators ⊆ d'.operators ∧
        ∀ task ∈ tasks, ∃ o ∈ d'.operators, o.task? = some task := by
  induction tasks with
  | nil =>
      intro d d' hWire
      cases hWire
      exact ⟨List.Subset.refl _, fun _ hMem => absurd hMem List.not_mem_nil⟩
  | cons task rest ih =>
      intro d d' hWire
      obtain ⟨⟨predecessors, d1⟩, hFirst, hWire⟩ := bind_eq_ok_iff.mp hWire
      obtain ⟨hKept, hOthers⟩ := ih hWire
      have hGates := (predecessorsOf_grows hFirst).operators_subset
      have hOld := List.Subset.trans (List.subset_append_left d1.operators _) hKept
      refine ⟨List.Subset.trans hGates hOld, ?_⟩
      intro other hOther
      rcases List.mem_cons.mp hOther with rfl | hRest
      · exact ⟨taskOperator other predecessors,
          hKept (List.mem_append_right _ (List.mem_singleton.mpr rfl)), rfl⟩
      · exact hOthers other hRest

end Heeding

end Wiring

/-- What is known of every layout, whatever the names in its graph are. -/
structure Wiring.LaidOut (g : TaskGraph) (ordered : List Operator) : Prop where
  heeds : ∀ o ∈ ordered, HeedsArrivals g o
  tasks : ∀ task ∈ g.tasks, ∃ o ∈ ordered, o.task? = some task

theorem TaskGraph.laidOut_of_layout {g : TaskGraph} {ordered : List Operator}
    (hIds : (g.tasks.map Task.id).Nodup) (hLayout : g.layout = .ok ordered) :
    Wiring.LaidOut g ordered := by
  obtain ⟨operators, hOperators, hOrder⟩ := bind_eq_ok_iff.mp hLayout
  obtain ⟨⟨plans, taken⟩, hPlans, hOperators⟩ := bind_eq_ok_iff.mp hOperators
  obtain ⟨⟨branches, d⟩, hBranches, hOperators⟩ := bind_eq_ok_iff.mp hOperators
  obtain ⟨d', hTasks, hOperators⟩ := bind_eq_ok_iff.mp hOperators
  cases hOperators
  have hPerm : ordered.Perm (branches ++ d'.operators) :=
    Layout.place_perm ordered (Wiring.distinct_of_wiring hIds hPlans hBranches hTasks) hOrder
  have hPassed : ∀ plan ∈ plans, plan.record.decision ∈ g.passedDecisions :=
    fun _ hPlan => (Wiring.planBranches_spec _ hPlans).passed hPlan
  have hGates : ∀ o ∈ d.operators, Wiring.HeedsArrivals g o :=
    (Wiring.wireBranches_grows plans hBranches).heedsArrivals
      fun _ hMem => absurd hMem List.not_mem_nil
  constructor
  · intro o hMem
    rcases List.mem_append.mp (hPerm.mem_iff.mp hMem) with hBranch | hOther
    · exact Wiring.wireBranches_heedsArrivals plans hPassed hBranches o hBranch
    · exact Wiring.wireTasks_heedsArrivals g.tasks (List.Subset.refl _) hTasks hGates o hOther
  · intro task hTask
    obtain ⟨o, hMem, hOwn⟩ := (Wiring.wireTasks_operators g.tasks hTasks).2 task hTask
    exact ⟨o, hPerm.mem_iff.mpr (List.mem_append_right _ hMem), hOwn⟩

namespace Transformed

variable {w : Workflow} {options : TaskOptions} {g : TaskGraph}

/-- What brings no signal has come through forks alone. -/
theorem throughForks_of_brings (hTransformed : Transformed w options g) (hChecked : w.Checked)
    {signal? : Option Signal} {join? : Option String} {name : String}
    (hBrings : w.Brings signal? join? name) (hNone : signal? = none) : w.ThroughForks name := by
  induction hBrings with
  | start => exact .start
  | ok hReachable hFind => cases hNone
  | error hReachable hFind => cases hNone
  | plain _ hCross ih => exact (ih hNone).step hCross
  | join _ hCross ih =>
      cases hCross with
      | join hFind =>
          exact absurd hFind (hTransformed.ne_join_of_throughForks hChecked (ih hNone) _ _)
  | branch _ _ _ => cases hNone

/-- All ways to a node lead through forks alone exactly when no signal is brought to it. -/
theorem onlyThroughForks_iff (hTransformed : Transformed w options g) (hChecked : w.Checked)
    {name : String} :
    w.OnlyThroughForks name ↔ ∀ signal join?, ¬w.Brings (some signal) join? name := by
  constructor
  · exact fun hOnly signal join? => hOnly.not_brings
  · intro hSilent before after hReachable hLeads hRest
    -- A signal that comes to the first node behind is followed by one at the last.
    have hSpreads : ∀ signal join?, ¬w.Brings (some signal) join? after := by
      clear hLeads
      induction hRest using Relation.ReflTransGen.head_induction_on with
      | refl => exact hSilent
      | head hFirst _ ih =>
          intro signal join? hBrings
          obtain ⟨next?, nextJoin?, hNext, hSome⟩ := hBrings.exists_of_leads hFirst
          obtain ⟨next, rfl⟩ := Option.isSome_iff_exists.mp (hSome rfl)
          exact ih next nextJoin? hNext
    obtain ⟨signal?, join?, hBrings⟩ := Workflow.exists_brings hReachable
    rcases Workflow.Leads.crosses_or_outcome hLeads with ⟨crossing, hCross⟩ | ⟨a, hFind, rfl | rfl⟩
    · cases crossing with
      | plain => exact hCross
      | join joinName =>
          -- Control stands at a join, so it has not come through forks alone.
          have hNext := hBrings.join hCross
          cases signal? with
          | some signal => exact absurd hNext (hSpreads signal _)
          | none =>
              have hThrough := hTransformed.throughForks_of_brings hChecked hBrings rfl
              cases hCross with
              | join hFind =>
                  exact absurd hFind
                    (hTransformed.ne_join_of_throughForks hChecked hThrough _ _)
      | branch decision caseIndex guard => exact absurd (hBrings.branch hCross) (hSpreads _ _)
    · exact absurd (.ok hReachable hFind) (hSpreads _ _)
    · exact absurd (.error hReachable hFind) (hSpreads _ _)

/-- A node that is reached through forks alone is reached so. -/
theorem throughForks_of_onlyThroughForks (hTransformed : Transformed w options g)
    (hChecked : w.Checked) {name : String} (hReachable : Workflow.Reachable w.nodes name)
    (hOnly : w.OnlyThroughForks name) : w.ThroughForks name := by
  obtain ⟨signal?, join?, hBrings⟩ := Workflow.exists_brings hReachable
  cases signal? with
  | some signal => exact absurd hBrings hOnly.not_brings
  | none => exact hTransformed.throughForks_of_brings hChecked hBrings rfl

/-- A task has signals exactly when signals are brought to its node, also where keys are shared. -/
theorem joinedSignals_eq_nil_iff (hTransformed : Transformed w options g) {task : Task}
    (hTask : task ∈ g.tasks) :
    joinedSignals task.dependencies = [] ↔
      ∀ signal join?, ¬w.Brings (some signal) join? task.source := by
  rw [List.eq_nil_iff_forall_not_mem]
  constructor
  · intro hNone signal join? hBrings
    obtain ⟨origin, crossings, hPath, hSignal, -⟩ := hBrings.exists_controlPath
    -- The dependency kept under the key of the path may be of another path, but of one with a
    -- signal.
    obtain ⟨d, hd, -⟩ := hTransformed.keyed task hTask origin crossings hPath
      (Dependency.isBare_of_signal? hSignal)
    have hTraced := ((hTransformed.sound task hTask).arrives d hd).1
    cases hKept : d.signal? with
    | none => rw [Dependency.signal?_eq_none_iff.mp hKept] at hTraced; cases hTraced
    | some kept =>
        have hJoined : d.joined? = some ⟨kept, d.join⟩ :=
          Dependency.joined?_eq_some_iff.mpr ⟨hKept, rfl⟩
        exact hNone _ (Dependency.mem_joinedSignals.mpr ⟨d, hd, hJoined⟩)
  · intro hSilent e he
    exact hSilent e.signal e.join (hTransformed.brings_of_joinedSignal hTask he)

/-- Where no signal is brought to a decision, none leads into it. -/
theorem signalsInto_eq_nil (hTransformed : Transformed w options g) {decision : String}
    (hSilent : ∀ signal join?, ¬w.Brings (some signal) join? decision) :
    g.signalsInto decision = [] := by
  rw [List.eq_nil_iff_forall_not_mem]
  exact fun e he => hSilent e.signal e.join (hTransformed.brings_of_signalInto he)

end Transformed

/-- The operator of an action or a kill waits on nothing exactly when all ways from the start to its
node lead through forks alone, and the branch operator of such a decision waits on nothing either.
Where names cannot be mistaken, no other branch operator does. -/
theorem waits_on_nothing_iff {source : String} {w : Workflow} {options : TaskOptions}
    {g : TaskGraph}
    (hRead : (Workflow.read source).result = .ok w)
    (hGraph : (TaskGraph.ofWorkflow w options).result = .ok g) :
    (w.SeparatorFree → ∃ ordered, g.layout = .ok ordered) ∧
    ∀ ordered, g.layout = .ok ordered →
      (∀ name, w.OwnsTask name →
        ∃ o ∈ ordered, ∃ task, o.task? = some task ∧ task.source = name) ∧
      (∀ o ∈ ordered, ∀ task, o.task? = some task →
        (o.WaitsOnNothing ↔ w.ThroughForks task.source ∧ w.OnlyThroughForks task.source)) ∧
      ∀ o ∈ ordered, ∀ decision, o.decision? = some decision →
        (w.OnlyThroughForks decision → o.WaitsOnNothing) ∧
        (w.SeparableNames → o.WaitsOnNothing →
          w.ThroughForks decision ∧ w.OnlyThroughForks decision) := by
  have hChecked := Workflow.checked_of_read hRead
  have hTransformed := Transformed.of_ofWorkflow hChecked hGraph
  refine ⟨fun hFree => ?_, fun ordered hLayout => ⟨?_, ?_, ?_⟩⟩
  · obtain ⟨plans, operators, hOperators, hAssembled⟩ :=
      hTransformed.exists_assembled hChecked hFree
    obtain ⟨ordered, hOrdered, -⟩ := hAssembled.exists_order
    exact ⟨ordered, bind_eq_ok_iff.mpr ⟨operators, hOperators, hOrdered⟩⟩
  · intro name hOwns
    obtain ⟨task, hTask, hSource⟩ := hTransformed.exists_task hOwns
    obtain ⟨o, hMem, hOwn⟩ := (g.laidOut_of_layout hTransformed.ids hLayout).tasks task hTask
    exact ⟨o, hMem, task, hOwn, hSource⟩
  · intro o hMem task hOwn
    obtain ⟨hTask, hHeeds⟩ :=
      ((g.laidOut_of_layout hTransformed.ids hLayout).heeds o hMem).task task hOwn
    have hReachable := (hTransformed.ownsTask hTask).1
    rw [hHeeds.waitsOnNothing_iff, hTransformed.joinedSignals_eq_nil_iff hTask,
      ← hTransformed.onlyThroughForks_iff hChecked]
    exact ⟨fun hOnly => ⟨hTransformed.throughForks_of_onlyThroughForks hChecked hReachable hOnly,
      hOnly⟩, And.right⟩
  · intro o hMem decision hOwn
    obtain ⟨hPassed, hHeeds⟩ :=
      ((g.laidOut_of_layout hTransformed.ids hLayout).heeds o hMem).decision decision hOwn
    rw [hHeeds.waitsOnNothing_iff]
    constructor
    · exact fun hOnly => hTransformed.signalsInto_eq_nil fun _ _ => hOnly.not_brings
    · intro hNames hNone
      have hCollects := hTransformed.collects_decision hChecked hNames hPassed
      rw [hNone] at hCollects
      have hOnly : w.OnlyThroughForks decision :=
        (hTransformed.onlyThroughForks_iff hChecked).mpr fun _ _ => hCollects.not_brings
      have hReachable := (hTransformed.decision_of_passed hPassed).1
      exact ⟨hTransformed.throughForks_of_onlyThroughForks hChecked hReachable hOnly, hOnly⟩

theorem waits_on_nothing_iff_sample :
    (Workflow.read Sample.source).result = .ok Sample.workflow ∧
    (TaskGraph.ofWorkflow Sample.workflow {}).result = .ok Sample.graph ∧
    ∃ ordered, Sample.graph.layout = .ok ordered ∧
      (∃ o ∈ ordered, (∃ task, o.task? = some task ∧ task.source = "a") ∧ o.WaitsOnNothing) ∧
      ∀ o ∈ ordered, o.decision? = some "d" → o.WaitsOnNothing := by
  have hFork : Sample.workflow.ThroughForks "f" := Workflow.ThroughForks.start.step (.start rfl)
  have hAction : Sample.workflow.ThroughForks "a" := hFork.step (.fork rfl List.mem_cons_self)
  have hDecision : Sample.workflow.ThroughForks "d" :=
    hFork.step (.fork rfl (List.mem_cons_of_mem _ List.mem_cons_self))
  obtain ⟨hLayout, hAll⟩ := waits_on_nothing_iff Sample.read_source Sample.ofWorkflow_workflow
  obtain ⟨ordered, hOrdered⟩ := hLayout (by decide)
  obtain ⟨hTasks, hOwn, hBranches⟩ := hAll ordered hOrdered
  have hStart : Workflow.Leads Sample.workflow.nodes "start" "f" := by unfold Workflow.Leads; decide
  have hPath : Workflow.Leads Sample.workflow.nodes "f" "a" := by unfold Workflow.Leads; decide
  have hOwns : Sample.workflow.OwnsTask "a" :=
    ⟨((Workflow.Reachable.start _).step hStart).step hPath, _, rfl, Or.inl rfl⟩
  obtain ⟨o, hMem, task, hTask, hSource⟩ := hTasks "a" hOwns
  refine ⟨Sample.read_source, Sample.ofWorkflow_workflow, ordered, hOrdered,
    ⟨o, hMem, ⟨task, hTask, hSource⟩, ?_⟩, ?_⟩
  · rw [hOwn o hMem task hTask, hSource]
    exact ⟨hAction, Sample.onlyThroughForks "a" hAction⟩
  · intro branch hBranch hName
    exact (hBranches branch hBranch "d" hName).1 (Sample.onlyThroughForks "d" hDecision)

namespace LinkedPaths

/-- The units of a document whose fork leads to two actions and a decision.  On the error of the
first action comes the second, and on the error of the second the decision. -/
def units : List Char :=
  ["<w name='w'>",
    "<start to='f'/>",
    "<fork name='f'><path start='a'/><path start='b'/><path start='d'/></fork>",
    "<action name='a'><x/><ok to='j'/><error to='b'/></action>",
    "<action name='b'><x/><ok to='j'/><error to='d'/></action>",
    "<decision name='d'>",
    "<switch><case to='c'>true</case><default to='j'/></switch>",
    "</decision>",
    "<action name='c'><x/><ok to='j'/><error to='e'/></action>",
    "<join name='j' to='e'/>",
    "<end name='e'/>",
    "</w>"].flatMap String.toList

/-- The document with these units. -/
def source : String :=
  String.ofList units

/-- The workflow of the document. -/
def workflow : Workflow where
  name := "w"
  nodes :=
    [.start "f", .fork ⟨"f", ["a", "b", "d"], none⟩,
      .action { name := "a", actionType := "x", ok := "j", error := "b" },
      .action { name := "b", actionType := "x", ok := "j", error := "d" },
      .decision ⟨"d", [⟨"true", "c"⟩], "j"⟩,
      .action { name := "c", actionType := "x", ok := "j", error := "e" }, .join "j" "e",
      .finish "e"]
  closingJoins := [("f", "j")]
  defaults := .empty

/-- The task of the first action. -/
def first : Task where
  id := "a"
  source := "a"
  body := .action "x" {}

/-- The task of the second action, which knows of the first one only. -/
def second : Task where
  id := "b"
  source := "b"
  body := .action "x" {}
  dependencies := [⟨some "a", .failure, [], none⟩]

/-- The task behind the decision. -/
def chosen : Task where
  id := "c"
  source := "c"
  body := .action "x" {}
  dependencies :=
    [⟨some "b", .failure, [⟨"d", some 0, some "true", none⟩], none⟩,
      ⟨none, .success, [⟨"d", some 0, some "true", none⟩], none⟩]

/-- The selection at the decision. -/
def selection : ResolvedDecision :=
  ⟨"d", [⟨"true", "c", some "true"⟩], "j", "c", some 0⟩

/-- The tasks of the workflow and the selection at its decision. -/
def graph : TaskGraph where
  workflow := "w"
  tasks := [first, second, chosen]
  decisions := [selection]

/-- The layout: the second action and the decision each wait for a failure. -/
def operators : List Operator :=
  [⟨"a", .task first, "a", [], .allSuccess⟩, ⟨"b", .task second, "b", ["a"], .oneFailed⟩,
    ⟨"d", .branch selection "d_case_1", "d", ["b"], .oneFailed⟩,
    ⟨"d_case_1", .dummy, "d_case_1", ["d"], .allSuccess⟩,
    ⟨"c", .task chosen, "c", ["d_case_1"], .allSuccess⟩,
    ⟨"d_default", .dummy, "d_default", ["d"], .allSuccess⟩]

theorem read_source : (Workflow.read source).result = .ok workflow :=
  Workflow.read_ofList (by decide +kernel)

theorem ofWorkflow_workflow : (TaskGraph.ofWorkflow workflow {}).result = .ok graph := by
  decide +kernel

theorem layout_graph : graph.layout = .ok operators := by
  decide +kernel

theorem throughForks_of_mem {name : String} (hMem : name ∈ ["a", "b", "d"]) :
    workflow.ThroughForks name := by
  have hFork : workflow.ThroughForks "f" := Workflow.ThroughForks.start.step (.start rfl)
  exact hFork.step (.fork (f := ⟨"f", ["a", "b", "d"], none⟩) rfl hMem)

end LinkedPaths

/-- The start leads to an action and to a decision through a fork alone, and yet they wait for the
failures of other actions. -/
theorem start_edge_lost :
    (Workflow.read LinkedPaths.source).result = .ok LinkedPaths.workflow ∧
    (TaskGraph.ofWorkflow LinkedPaths.workflow {}).result = .ok LinkedPaths.graph ∧
    LinkedPaths.workflow.ThroughForks "b" ∧ LinkedPaths.workflow.ThroughForks "d" ∧
    ∃ ordered, LinkedPaths.graph.layout = .ok ordered ∧
      (∃ o ∈ ordered, (∃ task, o.task? = some task ∧ task.source = "b") ∧
        o.predecessors = ["a"] ∧ o.triggerRule = .oneFailed) ∧
      ∃ o ∈ ordered, o.decision? = some "d" ∧ o.predecessors = ["b"] ∧
        o.triggerRule = .oneFailed := by
  refine ⟨LinkedPaths.read_source, LinkedPaths.ofWorkflow_workflow,
    LinkedPaths.throughForks_of_mem (by decide), LinkedPaths.throughForks_of_mem (by decide),
    LinkedPaths.operators, LinkedPaths.layout_graph, ?_, ?_⟩
  · exact ⟨_, List.mem_cons_of_mem _ List.mem_cons_self, ⟨LinkedPaths.second, rfl, rfl⟩, rfl, rfl⟩
  · exact ⟨_, List.mem_cons_of_mem _ (List.mem_cons_of_mem _ List.mem_cons_self), rfl, rfl, rfl⟩

end WorkflowDag
