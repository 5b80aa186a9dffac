import WorkflowDag.Proofs.GraphSignals
import WorkflowDag.Proofs.GreedyOrder

/-!
# What a layout holds

The operators of any task graph, also of one that no workflow has: the operator of each task, the
branch operator of each decision that a dependency passes with a dummy for each branch, and gates.
Decisions are wired in blocks (`wireBranches_blocks`), tasks one by one into a draft that holds
nothing else but gates (`wireTasks_holds`).  A gate is told from the dummy of a branch by its rule.

Main statement: a layout holds these operators in a greedy order, and a graph whose operators can be
made has none only where they have no order at all (`layout_exact`).
-/

namespace WorkflowDag

/-- The name is the base, or the base with a number from two on. -/
def Numbered (base name : String) : Prop :=
  name = base ∨ ∃ n, 2 ≤ n ∧ name = base ++ "_" ++ Text.decimal n

theorem numbered_freeName (taken : List String) (base : String) :
    Numbered base (freeName taken base) := by
  have hNumber : ∀ steps n, ∃ k, n ≤ k ∧
      numberedName taken base steps n = base ++ "_" ++ Text.decimal k := by
    intro steps
    induction steps with
    | zero => exact fun n => ⟨n, Nat.le_refl n, rfl⟩
    | succ steps ih =>
        intro n
        simp only [numberedName]
        split
        · obtain ⟨k, hk, hName⟩ := ih (n + 1)
          exact ⟨k, by omega, hName⟩
        · exact ⟨n, Nat.le_refl n, rfl⟩
  unfold freeName
  split
  · exact Or.inr (hNumber taken.length 2)
  · exact Or.inl rfl

namespace Wiring

/-- The operators of a decision are named after it, and its dummies after their branches. -/
structure BranchPlan.Named (p : BranchPlan) : Prop where
  id : Numbered (Task.idOf p.record.decision) p.id
  cases : ∀ i name, p.cases[i]? = some name →
    Numbered (p.id ++ "_case_" ++ Text.decimal (i + 1)) name
  fallback : Numbered (p.id ++ "_default") p.fallback

section Planning

theorem planCases_numbered (id : String) (records : List CaseRecord) :
    ∀ taken n i name, (planCases id taken n records).1[i]? = some name →
      Numbered (id ++ "_case_" ++ Text.decimal (n + i + 1)) name := by
  induction records with
  | nil => exact fun _ _ _ _ hNone => by cases hNone
  | cons record rest ih =>
      intro taken n i name hName
      cases i with
      | zero =>
          cases hName
          exact numbered_freeName _ _
      | succ i =>
          have hLater := ih _ (n + 1) i name hName
          rwa [show n + 1 + i + 1 = n + (i + 1) + 1 by omega] at hLater

theorem named_planBranch (taken : List String) (record : ResolvedDecision) :
    (planBranch taken record).1.Named where
  id := numbered_freeName _ _
  cases := by
    intro i name hName
    have hCase := planCases_numbered _ record.cases _ 0 i name hName
    rwa [Nat.zero_add] at hCase
  fallback := numbered_freeName _ _

theorem named_of_planBranches {g : TaskGraph} (decisions : List String) :
    ∀ {taken taken' : List String} {plans : List BranchPlan},
      planBranches g taken decisions = .ok (plans, taken') → ∀ plan ∈ plans, plan.Named := by
  induction decisions with
  | nil =>
      intro taken taken' plans hPlans
      cases hPlans
      exact fun _ hMem => absurd hMem List.not_mem_nil
  | cons decision rest ih =>
      intro taken taken' plans hPlans
      unfold planBranches at hPlans
      cases hRecord : g.recordOf? decision with
      | none =>
          rw [hRecord] at hPlans
          cases hPlans
      | some record =>
          rw [hRecord] at hPlans
          obtain ⟨⟨others, last⟩, hOthers, hPlans⟩ := bind_eq_ok_iff.mp hPlans
          cases hPlans
          exact List.forall_mem_cons.mpr ⟨named_planBranch taken record, ih hOthers⟩

/-- A selection in range is that of a dummy. -/
theorem BranchPlan.getElem?_dummies {p : BranchPlan}
    (hCases : p.cases.length = p.record.cases.length)
    (hRange : ∀ i, p.record.takenCase = some i → i < p.record.cases.length) :
    p.dummies[p.record.takenCase.getD p.record.cases.length]? = some p.chosen := by
  unfold BranchPlan.chosen
  cases hTaken : p.record.takenCase with
  | none =>
      rw [Option.getD_none, ← hCases, BranchPlan.dummies]
      exact List.getElem?_concat_length
  | some i =>
      have hLess : i < p.dummies.length := by
        have hOwn := hRange i hTaken
        simp only [BranchPlan.dummies, List.length_append, List.length_singleton]
        omega
      show p.dummies[i]? = some (p.dummies[i]?.getD p.id)
      rw [List.getElem?_eq_getElem hLess, Option.getD_some]

end Planning

/-- The operators of decisions, with the dummies of their branches. -/
structure Blocks (g : TaskGraph) (plans : List BranchPlan) (operators : List Operator) : Prop where
  tasks : operators.filterMap Operator.task? = []
  decisions : operators.filterMap Operator.decision? = plans.map fun plan => plan.record.decision
  dummies : ∀ plan ∈ plans, ∀ id ∈ plan.dummies, dummyOperator plan id ∈ operators
  made : ∀ o ∈ operators, ∃ plan ∈ plans,
    (∃ predecessors, o = branchOperator g plan predecessors) ∨
      ∃ id ∈ plan.dummies, o = dummyOperator plan id

/-- The draft holds the operators of these tasks, and gates. -/
structure Draft.Holds (tasks : List Task) (d : Draft) : Prop where
  tasks : d.operators.filterMap Operator.task? = tasks
  decisions : d.operators.filterMap Operator.decision? = []
  ids : ∀ o ∈ d.operators, ∀ task, o.task? = some task → o.id = task.id
  gates : ∀ o ∈ d.operators, o.body = .dummy → o.triggerRule ≠ .allSuccess

section Contents

variable {g : TaskGraph} {plans : List BranchPlan}

/-- The block of one decision in front of those of others. -/
theorem Blocks.cons {rest : List BranchPlan} {others : List Operator}
    (hRest : Blocks g rest others) (plan : BranchPlan) (predecessors : List String) :
    Blocks g (plan :: rest) (branchOperator g plan predecessors ::
      (plan.dummies.map (dummyOperator plan) ++ others)) := by
  have hTasks : (plan.dummies.map (dummyOperator plan)).filterMap Operator.task? = [] := by
    rw [List.filterMap_eq_nil_iff]
    exact List.forall_mem_map.mpr fun id _ => rfl
  have hDecisions : (plan.dummies.map (dummyOperator plan)).filterMap Operator.decision? = [] := by
    rw [List.filterMap_eq_nil_iff]
    exact List.forall_mem_map.mpr fun id _ => rfl
  constructor
  · rw [List.filterMap_cons_none rfl, List.filterMap_append, hTasks, hRest.tasks, List.append_nil]
  · have hOwn : (branchOperator g plan predecessors).decision? = some plan.record.decision := rfl
    rw [List.filterMap_cons_some hOwn, List.filterMap_append, hDecisions, hRest.decisions,
      List.nil_append, List.map_cons]
  · refine List.forall_mem_cons.mpr ⟨fun id hId => ?_, fun other hOther id hId => ?_⟩
    · exact List.mem_cons_of_mem _ (List.mem_append_left _ (List.mem_map_of_mem hId))
    · exact List.mem_cons_of_mem _ (List.mem_append_right _ (hRest.dummies other hOther id hId))
  · refine List.forall_mem_cons.mpr
      ⟨⟨plan, List.mem_cons_self, Or.inl ⟨predecessors, rfl⟩⟩,
        List.forall_mem_append.mpr ⟨List.forall_mem_map.mpr fun id hId => ?_, fun o hMem => ?_⟩⟩
    · exact ⟨plan, List.mem_cons_self, Or.inr ⟨id, hId, rfl⟩⟩
    · obtain ⟨other, hOther, hMade⟩ := hRest.made o hMem
      exact ⟨other, List.mem_cons_of_mem _ hOther, hMade⟩

theorem wireBranches_blocks (rest : List BranchPlan) :
    ∀ {d d' : Draft} {operators : List Operator},
      wireBranches g plans d rest = .ok (operators, d') → Blocks g rest operators := by
  induction rest with
  | nil =>
      intro d d' operators hWire
      cases hWire
      exact ⟨rfl, rfl, fun _ hMem => absurd hMem List.not_mem_nil,
        fun _ hMem => absurd hMem List.not_mem_nil⟩
  | cons plan rest ih =>
      intro d d' operators hWire
      obtain ⟨⟨predecessors, d1⟩, -, hWire⟩ := bind_eq_ok_iff.mp hWire
      obtain ⟨⟨others, d2⟩, hOthers, hWire⟩ := bind_eq_ok_iff.mp hWire
      cases hWire
      exact (ih hOthers).cons plan predecessors

/-- Gates stand for no task and no decision. -/
theorem Draft.Grows.holds {tasks : List Task} {d d' : Draft} (hGrows : d.Grows d')
    (hHolds : d.Holds tasks) : d'.Holds tasks := by
  induction hGrows with
  | refl => exact hHolds
  | tail _ hStep ih =>
      obtain ⟨key, base, predecessors, rule, hRule, rfl⟩ := hStep
      constructor
      · rw [Draft.addGate, List.filterMap_append, ih.tasks]
        exact List.append_nil tasks
      · rw [Draft.addGate, List.filterMap_append, ih.decisions]
        rfl
      · refine List.forall_mem_append.mpr ⟨ih.ids, List.forall_mem_singleton.mpr ?_⟩
        intro task hTask
        cases hTask
      · exact List.forall_mem_append.mpr
          ⟨ih.gates, List.forall_mem_singleton.mpr fun _ => hRule⟩

theorem Draft.Holds.addTask {tasks : List Task} {d : Draft} (hHolds : d.Holds tasks) (task : Task)
    (predecessors : List String) :
    (d.addOperator (taskOperator task predecessors)).Holds (tasks ++ [task]) := by
  constructor
  · rw [Draft.addOperator, List.filterMap_append, hHolds.tasks]
    rfl
  · rw [Draft.addOperator, List.filterMap_append, hHolds.decisions]
    rfl
  · refine List.forall_mem_append.mpr ⟨hHolds.ids, List.forall_mem_singleton.mpr ?_⟩
    intro other hOther
    cases hOther
    rfl
  · refine List.forall_mem_append.mpr ⟨hHolds.gates, List.forall_mem_singleton.mpr ?_⟩
    intro hDummy
    cases hDummy

theorem wireTasks_holds (rest : List Task) :
    ∀ {tasks : List Task} {d d' : Draft}, d.Holds tasks → wireTasks plans d rest = .ok d' →
      d'.Holds (tasks ++ rest) := by
  induction rest with
  | nil =>
      intro tasks d d' hHolds hWire
      cases hWire
      rwa [List.append_nil]
  | cons task rest ih =>
      intro tasks d d' hHolds hWire
      obtain ⟨⟨predecessors, d1⟩, hFirst, hWire⟩ := bind_eq_ok_iff.mp hWire
      have hNext := ((predecessorsOf_grows hFirst).holds hHolds).addTask task predecessors
      have hAll := ih hNext hWire
      rwa [List.append_assoc] at hAll

end Contents

/-- The computation fails only for want of the dummy of a branch. -/
def LacksDummy {α : Type} (x : Except Error α) : Prop :=
  ∀ e, x = .error e → ∃ decision, e = .task decision .noBranchTask

namespace LacksDummy

variable {α β : Type}

theorem ok (a : α) : LacksDummy (.ok a) := fun _ hError => by cases hError

theorem bind {x : Except Error α} {f : α → Except Error β} (hFirst : LacksDummy x)
    (hRest : ∀ a, LacksDummy (f a)) : LacksDummy (x >>= f) := by
  intro e hError
  rcases bind_eq_error_iff.mp hError with hError | ⟨a, -, hError⟩
  · exact hFirst e hError
  · exact hRest a e hError

theorem map {x : Except Error α} {f : α → β} (hFirst : LacksDummy x) : LacksDummy (x.map f) :=
  fun e hError => hFirst e (map_eq_error_iff.mp hError)

end LacksDummy

section Failures

variable (plans : List BranchPlan)

theorem sender_lacks (signal : Signal) : LacksDummy (sender plans signal) := by
  cases signal with
  | success task => exact .ok task
  | failure task => exact .ok task
  | branch step =>
      simp only [sender]
      split
      · exact .ok _
      · intro e hError
        cases hError
        exact ⟨step.decision, rfl⟩

theorem senders_lacks (signals : List Signal) : LacksDummy (senders plans signals) := by
  induction signals with
  | nil => exact .ok []
  | cons signal rest ih => exact (sender_lacks plans signal).bind fun id => ih.bind fun ids => .ok _

theorem relay_lacks (d : Draft) (signal : Signal) : LacksDummy (relay plans d signal) := by
  cases signal with
  | success task => exact .ok (task, d)
  | failure task => exact .ok _
  | branch step => exact (sender_lacks plans _).map

theorem relays_lacks (signals : List Signal) : ∀ d, LacksDummy (relays plans d signals) := by
  induction signals with
  | nil => exact fun d => .ok _
  | cons signal rest ih =>
      exact fun d => (relay_lacks plans d signal).bind fun first => (ih first.2).bind fun _ => .ok _

theorem entrance_lacks (d : Draft) (arrival : Arrival) : LacksDummy (entrance plans d arrival) := by
  unfold entrance
  split
  · exact relay_lacks plans d _
  · exact (relays_lacks plans arrival.signals d).bind fun _ => .ok _

theorem entrances_lacks (found : List Arrival) : ∀ d, LacksDummy (entrances plans d found) := by
  induction found with
  | nil => exact fun d => .ok _
  | cons arrival rest ih =>
      exact fun d =>
        (entrance_lacks plans d arrival).bind fun first => (ih first.2).bind fun _ => .ok _

theorem predecessorsOf_lacks (d : Draft) (found : List Arrival) :
    LacksDummy (predecessorsOf plans d found) := by
  unfold predecessorsOf
  split
  · exact (senders_lacks plans _).map
  · split
    · exact (relays_lacks plans _ d).map
    · exact (entrances_lacks plans found d).map

theorem wireBranches_lacks (g : TaskGraph) (rest : List BranchPlan) :
    ∀ d, LacksDummy (wireBranches g plans d rest) := by
  induction rest with
  | nil => exact fun d => .ok _
  | cons plan rest ih =>
      exact fun d =>
        (predecessorsOf_lacks plans d _).bind fun first => (ih first.2).bind fun _ => .ok _

theorem wireTasks_lacks (tasks : List Task) : ∀ d, LacksDummy (wireTasks plans d tasks) := by
  induction tasks with
  | nil => exact fun d => .ok d
  | cons task rest ih => exact fun d => (predecessorsOf_lacks plans d _).bind fun _ => ih _

theorem error_of_planBranches {g : TaskGraph} (decisions : List String) :
    ∀ {taken : List String} {e : Error}, planBranches g taken decisions = .error e →
      ∃ decision, e = .task decision .noSelection := by
  induction decisions with
  | nil =>
      intro taken e hError
      cases hError
  | cons decision rest ih =>
      intro taken e hError
      unfold planBranches at hError
      cases hRecord : g.recordOf? decision with
      | none =>
          rw [hRecord] at hError
          cases hError
          exact ⟨decision, rfl⟩
      | some record =>
          rw [hRecord] at hError
          rcases bind_eq_error_iff.mp hError with hError | ⟨_, -, hError⟩
          · exact ih hError
          · cases hError

end Failures

end Wiring

open Wiring

/-- Operators are not made where a decision has no record or one of its branches no dummy. -/
theorem TaskGraph.error_of_operators {g : TaskGraph} {e : Error} (hError : g.operators = .error e) :
    ∃ decision fault, e = .task decision fault ∧
      (fault = .noSelection ∨ fault = .noBranchTask) := by
  rcases bind_eq_error_iff.mp hError with hPlans | ⟨⟨plans, taken⟩, -, hWire⟩
  · obtain ⟨decision, rfl⟩ := error_of_planBranches _ hPlans
    exact ⟨decision, _, rfl, Or.inl rfl⟩
  · have hLacks : LacksDummy (wireBranches g plans { taken } plans >>= fun wired =>
        wireTasks plans wired.2 g.tasks >>= fun d => .ok (wired.1 ++ d.operators)) :=
      (wireBranches_lacks plans g plans _).bind fun wired =>
        (wireTasks_lacks plans g.tasks wired.2).bind fun _ => .ok _
    obtain ⟨decision, rfl⟩ := hLacks e hWire
    exact ⟨decision, _, rfl, Or.inr rfl⟩

namespace Layout

/-- The dummies of a branch operator: in turn one for each recorded case and one for the default. -/
structure BranchDummies (ordered : List Operator) (o : Operator) (record : ResolvedDecision)
    (dummies : List String) : Prop where
  length : dummies.length = record.cases.length + 1
  distinct : dummies.Nodup
  mem_iff : ∀ id, id ∈ dummies ↔ ∃ u ∈ ordered, u.id = id ∧ u.body = .dummy ∧
    u.predecessors = [o.id] ∧ u.triggerRule = .allSuccess
  cases : ∀ i name, i < record.cases.length → dummies[i]? = some name →
    Numbered (o.id ++ "_case_" ++ Text.decimal (i + 1)) name
  fallback : ∀ name, dummies[record.cases.length]? = some name →
    Numbered (o.id ++ "_default") name

/-- The layout holds all operators of the graph under ids of their own: one for each task, and for
each decision that a dependency passes one that follows the recorded selection. -/
structure Complete (g : TaskGraph) (ordered : List Operator) : Prop where
  ids : (ordered.map Operator.id).Nodup
  tasks : (ordered.filterMap Operator.task?).Perm g.tasks
  taskIds : ∀ o ∈ ordered, ∀ task, o.task? = some task → o.id = task.id
  once : (ordered.filterMap Operator.decision?).Nodup
  decisions : ∀ decision, decision ∈ ordered.filterMap Operator.decision? ↔
    ∃ task ∈ g.tasks, ∃ d ∈ task.dependencies, ∃ step ∈ d.branches, step.decision = decision
  branches : ∀ o ∈ ordered, ∀ record chosen, o.body = .branch record chosen →
    g.recordOf? record.decision = some record ∧
      ∃ dummies, BranchDummies ordered o record dummies ∧
        ((∀ i, record.takenCase = some i → i < record.cases.length) →
          dummies[record.takenCase.getD record.cases.length]? = some chosen)

end Layout

theorem TaskGraph.mem_passedDecisions_iff {g : TaskGraph} {decision : String} :
    decision ∈ g.passedDecisions ↔
      ∃ task ∈ g.tasks, ∃ d ∈ task.dependencies, ∃ step ∈ d.branches, step.decision = decision := by
  constructor
  · intro hPassed
    obtain ⟨e?, hPassage⟩ := mem_passedDecisions.mp hPassed
    obtain ⟨task, hTask, d, hd, hPassage⟩ := mem_passages.mp hPassage
    have hDecision : decision ∈ d.branches.map PassedBranch.decision := by
      rw [← d.map_fst_passages]
      exact List.mem_map_of_mem hPassage
    obtain ⟨step, hStep, rfl⟩ := List.mem_map.mp hDecision
    exact ⟨task, hTask, d, hd, step, hStep, rfl⟩
  · rintro ⟨task, hTask, d, hd, step, hStep, rfl⟩
    exact mem_passedDecisions_of_branch hTask hd hStep

/-- What a graph has been wired with: the operators of its decisions, and a draft with those of its
tasks. -/
structure Wiring.Contents (g : TaskGraph) (plans : List BranchPlan) (branches : List Operator)
    (d : Draft) : Prop where
  ids : ((branches ++ d.operators).map Operator.id).Nodup
  planned : ∃ taken, Planned g g.passedDecisions (g.tasks.map Task.id) plans taken
  named : ∀ plan ∈ plans, plan.Named
  blocks : Blocks g plans branches
  holds : d.Holds g.tasks

theorem TaskGraph.exists_contents {g : TaskGraph} {operators : List Operator}
    (hIds : (g.tasks.map Task.id).Nodup) (hOperators : g.operators = .ok operators) :
    ∃ plans branches d, Contents g plans branches d ∧ operators = branches ++ d.operators := by
  obtain ⟨⟨plans, taken⟩, hPlans, hOperators⟩ := bind_eq_ok_iff.mp hOperators
  obtain ⟨⟨branches, d⟩, hBranches, hOperators⟩ := bind_eq_ok_iff.mp hOperators
  obtain ⟨d', hTasks, hOperators⟩ := bind_eq_ok_iff.mp hOperators
  cases hOperators
  have hEmpty : Draft.Holds [] { taken } :=
    ⟨rfl, rfl, fun _ hMem => absurd hMem List.not_mem_nil,
      fun _ hMem => absurd hMem List.not_mem_nil⟩
  refine ⟨plans, branches, d', ?_, rfl⟩
  constructor
  · exact distinct_of_wiring hIds hPlans hBranches hTasks
  · exact ⟨taken, planBranches_spec _ hPlans⟩
  · exact named_of_planBranches _ hPlans
  · exact wireBranches_blocks plans hBranches
  · exact wireTasks_holds g.tasks ((wireBranches_grows plans hBranches).holds hEmpty) hTasks

namespace Wiring.Contents

variable {g : TaskGraph} {plans : List BranchPlan} {branches ordered : List Operator} {d : Draft}

theorem task?_filterMap (hContents : Contents g plans branches d) :
    (branches ++ d.operators).filterMap Operator.task? = g.tasks := by
  rw [List.filterMap_append, hContents.blocks.tasks, hContents.holds.tasks, List.nil_append]

theorem decision?_filterMap (hContents : Contents g plans branches d) :
    (branches ++ d.operators).filterMap Operator.decision? = g.passedDecisions := by
  obtain ⟨taken, hPlanned⟩ := hContents.planned
  rw [List.filterMap_append, hContents.blocks.decisions, hContents.holds.decisions,
    List.append_nil, hPlanned.decisions]

/-- Only decisions have branch operators. -/
theorem exists_plan (hContents : Contents g plans branches d) {o : Operator}
    (hMem : o ∈ branches ++ d.operators) {record : ResolvedDecision} {chosen : String}
    (hBody : o.body = .branch record chosen) :
    ∃ plan ∈ plans, o.id = plan.id ∧ record = plan.record ∧ chosen = plan.chosen := by
  rcases List.mem_append.mp hMem with hBranch | hOther
  · obtain ⟨plan, hPlan, ⟨predecessors, rfl⟩ | ⟨id, hId, rfl⟩⟩ := hContents.blocks.made o hBranch
    · cases hBody
      exact ⟨plan, hPlan, rfl, rfl, rfl⟩
    · cases hBody
  · have hDecision : o.decision? = some record.decision := by
      rw [Operator.decision?, hBody]
    have hNone := List.filterMap_eq_nil_iff.mp hContents.holds.decisions o hOther
    rw [hDecision] at hNone
    cases hNone

/-- Only dummies of branches wait for the branch operator alone and for it to succeed. -/
theorem mem_dummies_iff (hContents : Contents g plans branches d)
    (hIds : (g.tasks.map Task.id).Nodup) {plan : BranchPlan} (hPlan : plan ∈ plans) (id : String) :
    id ∈ plan.dummies ↔ ∃ u ∈ branches ++ d.operators, u.id = id ∧ u.body = .dummy ∧
      u.predecessors = [plan.id] ∧ u.triggerRule = .allSuccess := by
  constructor
  · intro hId
    have hDummy := hContents.blocks.dummies plan hPlan id hId
    exact ⟨dummyOperator plan id, List.mem_append_left _ hDummy, rfl, rfl, rfl, rfl⟩
  · -- A dummy of another decision waits on another branch operator; a gate has another rule.
    rintro ⟨u, hMem, rfl, hBody, hBefore, hRule⟩
    rcases List.mem_append.mp hMem with hBranch | hOther
    · obtain ⟨other, hOther, ⟨predecessors, rfl⟩ | ⟨id, hId, rfl⟩⟩ :=
        hContents.blocks.made u hBranch
      · cases hBody
      · obtain ⟨taken, hPlanned⟩ := hContents.planned
        have hSame : other.id = plan.id := List.singleton_inj.mp hBefore
        have hOwn := List.inj_on_of_nodup_map (hPlanned.nodup_ids hIds) hOther hPlan hSame
        exact hOwn ▸ hId
    · exact absurd hRule (hContents.holds.gates u hOther hBody)

theorem branchDummies (hContents : Contents g plans branches d)
    (hIds : (g.tasks.map Task.id).Nodup) (hPerm : ordered.Perm (branches ++ d.operators))
    {plan : BranchPlan} (hPlan : plan ∈ plans) {o : Operator} (hId : o.id = plan.id) :
    Layout.BranchDummies ordered o plan.record plan.dummies := by
  obtain ⟨taken, hPlanned⟩ := hContents.planned
  have hCases := hPlanned.cases plan hPlan
  have hNamed := hContents.named plan hPlan
  constructor
  · rw [BranchPlan.dummies, List.length_append, List.length_singleton, hCases]
  · exact hPlanned.nodup_dummies hIds hPlan
  · intro id
    rw [hId, hContents.mem_dummies_iff hIds hPlan]
    exact exists_congr fun u => and_congr_left fun _ => hPerm.mem_iff.symm
  · intro i name hLess hName
    rw [BranchPlan.dummies, List.getElem?_append_left (hCases ▸ hLess)] at hName
    rw [hId]
    exact hNamed.cases i name hName
  · intro name hName
    rw [BranchPlan.dummies, ← hCases, List.getElem?_concat_length] at hName
    rw [hId, ← Option.some.inj hName]
    exact hNamed.fallback

/-- Any order of the operators of a graph is complete. -/
theorem complete (hContents : Contents g plans branches d) (hIds : (g.tasks.map Task.id).Nodup)
    (hPerm : ordered.Perm (branches ++ d.operators)) : Layout.Complete g ordered := by
  have hDecisions := hPerm.filterMap Operator.decision?
  rw [hContents.decision?_filterMap] at hDecisions
  constructor
  · exact (hPerm.map Operator.id).nodup_iff.mpr hContents.ids
  · rw [← hContents.task?_filterMap]
    exact hPerm.filterMap Operator.task?
  · intro o hMem task hTask
    rcases List.mem_append.mp (hPerm.mem_iff.mp hMem) with hBranch | hOther
    · have hNone := List.filterMap_eq_nil_iff.mp hContents.blocks.tasks o hBranch
      rw [hTask] at hNone
      cases hNone
    · exact hContents.holds.ids o hOther task hTask
  · exact hDecisions.nodup_iff.mpr (nodup_eraseDups _)
  · intro decision
    rw [hDecisions.mem_iff, TaskGraph.mem_passedDecisions_iff]
  · intro o hMem record chosen hBody
    obtain ⟨plan, hPlan, hId, rfl, rfl⟩ := hContents.exists_plan (hPerm.mem_iff.mp hMem) hBody
    obtain ⟨taken, hPlanned⟩ := hContents.planned
    refine ⟨hPlanned.recorded plan hPlan, plan.dummies,
      hContents.branchDummies hIds hPerm hPlan hId, ?_⟩
    exact BranchPlan.getElem?_dummies (hPlanned.cases plan hPlan)

end Wiring.Contents

/-- The layout fails since nothing that is left becomes ready. -/
def TaskGraph.NeverReady (g : TaskGraph) : Prop :=
  ∃ name fault, g.layout = .error (.task name fault) ∧
    fault.message = "its upstream dependencies never become ready"

/-- A graph whose operators can be made is never ready only where they have no order. -/
theorem TaskGraph.neverReady_iff {g : TaskGraph} (hIds : (g.tasks.map Task.id).Nodup) :
    g.NeverReady ↔ ∃ operators, g.operators = .ok operators ∧ ¬Layout.Orderable operators := by
  constructor
  · rintro ⟨name, fault, hError, hMessage⟩
    rcases bind_eq_error_iff.mp hError with hOperators | ⟨operators, hOperators, hOrder⟩
    · -- Where operators cannot be made, the message is another one.
      obtain ⟨decision, other, hSame, hFault⟩ := error_of_operators hOperators
      cases hSame
      rcases hFault with rfl | rfl
      · exact absurd hMessage (by decide)
      · exact absurd hMessage (by decide)
    · obtain ⟨plans, branches, d, hContents, rfl⟩ := exists_contents hIds hOperators
      refine ⟨_, hOperators, fun hOrderable => ?_⟩
      obtain ⟨ordered, hOrdered⟩ := (Layout.exists_order_iff hContents.ids).mpr hOrderable
      rw [hOrdered] at hOrder
      cases hOrder
  · rintro ⟨operators, hOperators, hNone⟩
    obtain ⟨plans, branches, d, hContents, rfl⟩ := exists_contents hIds hOperators
    cases hOrder : Layout.order (branches ++ d.operators) with
    | ok ordered =>
        exact absurd ((Layout.exists_order_iff hContents.ids).mp ⟨ordered, hOrder⟩) hNone
    | error e =>
        obtain ⟨o, -, rfl⟩ := Layout.error_of_place _ hOrder
        exact ⟨o.id, _, bind_eq_error_iff.mpr (Or.inr ⟨_, hOperators, hOrder⟩), rfl⟩

/-- A layout holds the operators of its graph in a greedy order.  There is none for want of ready
operators exactly where the operators can be made but have no order: one waits on what is not
there, or some wait on each other in a circle. -/
theorem layout_exact (g : TaskGraph) (hIds : (g.tasks.map Task.id).Nodup) :
    (∀ ordered, g.layout = .ok ordered → Layout.Complete g ordered ∧
      ∃ operators, g.operators = .ok operators ∧ Layout.Greedy operators ordered) ∧
    (g.NeverReady ↔ ∃ operators, g.operators = .ok operators ∧ ¬Layout.Orderable operators) ∧
    ∀ operators, g.operators = .ok operators →
      (¬Layout.Orderable operators ↔
        (∃ o ∈ operators, ∃ id ∈ o.predecessors, ∀ other ∈ operators, other.id ≠ id) ∨
          ∃ id, Relation.TransGen (Layout.Precedes operators) id id) := by
  refine ⟨?_, TaskGraph.neverReady_iff hIds, ?_⟩
  · intro ordered hLayout
    obtain ⟨operators, hOperators, hOrder⟩ := bind_eq_ok_iff.mp hLayout
    obtain ⟨plans, branches, d, hContents, rfl⟩ := TaskGraph.exists_contents hIds hOperators
    have hGreedy := Layout.greedy_of_order hContents.ids hOrder
    exact ⟨hContents.complete hIds hGreedy.all, _, hOperators, hGreedy⟩
  · intro operators hOperators
    obtain ⟨plans, branches, d, hContents, rfl⟩ := TaskGraph.exists_contents hIds hOperators
    rw [Layout.orderable_iff hContents.ids, not_and_or]
    push Not
    rfl

namespace TakenNames

/-- Tasks have the names that a decision and the dummy of its case would get. -/
def graph : TaskGraph where
  workflow := "taken"
  tasks := [
    { id := "pick", source := "pick", body := .kill "first" },
    { id := "pick_2_case_1", source := "last", body := .kill "last"
      dependencies := [
        { origin := some "pick", outcome := .success
          branches := [{ decision := "pick", caseIndex := some 0, guard := some "isLast" }] }] }]
  decisions := [⟨"pick", [⟨"isLast", "last", some "true"⟩], "end", "last", some 0⟩]

theorem ids_layout : graph.layout.map (fun ordered => ordered.map Operator.id) =
    .ok ["pick", "pick_2", "pick_2_case_1_2", "pick_2_case_1", "pick_2_default"] := by
  decide +kernel

end TakenNames

theorem layout_exact_takenNames :
    (TakenNames.graph.tasks.map Task.id).Nodup ∧ ∃ ordered, TakenNames.graph.layout = .ok ordered ∧
      ordered.map Operator.id =
        ["pick", "pick_2", "pick_2_case_1_2", "pick_2_case_1", "pick_2_default"] ∧
      Layout.Complete TakenNames.graph ordered ∧
      ∃ operators, TakenNames.graph.operators = .ok operators ∧
        Layout.Greedy operators ordered := by
  have hIds : (TakenNames.graph.tasks.map Task.id).Nodup := by decide
  obtain ⟨ordered, hLayout, hNames⟩ := map_eq_ok_iff.mp TakenNames.ids_layout
  exact ⟨hIds, ordered, hLayout, hNames, (layout_exact TakenNames.graph hIds).1 ordered hLayout⟩

end WorkflowDag
