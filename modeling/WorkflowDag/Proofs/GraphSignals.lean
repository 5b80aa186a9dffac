import WorkflowDag.Proofs.KeptDependencies
import WorkflowDag.Proofs.SignalPaths
import WorkflowDag.Proofs.WiredGraph

/-!
# The signals of a transformed workflow

Where no name can be mistaken in a key, what a task or a decision of a transformed workflow waits on
is what control paths bring to its node, no more and no less: `Collects` says so, for tasks in
`Transformed.collects_task` and for the decisions that dependencies pass in
`Transformed.collects_decision`.  Every such signal is sent from a node further up, so that the
graph can be wired where no node name holds a separator (`Transformed.exists_assembled`).
-/

namespace WorkflowDag

/-- No name of a node holds a separator. -/
def Workflow.SeparatorFree (w : Workflow) : Prop :=
  ∀ node ∈ w.nodes, Legible node.name

instance (w : Workflow) : Decidable w.SeparatorFree :=
  List.decidableBAll (fun node : Node => Legible node.name) w.nodes

/-- Names that hold no separator cannot be mistaken. -/
theorem Workflow.SeparatorFree.separableNames {w : Workflow} (hFree : w.SeparatorFree) :
    w.SeparableNames := by
  intro node hNode
  have hLegible := hFree node hNode
  cases node with
  | join name target => exact ⟨hLegible '>' (by decide), hLegible '|' (by decide)⟩
  | decision d => exact hLegible '/' (by decide)
  | start target => trivial
  | action a => trivial
  | fork f => trivial
  | kill name message => trivial
  | finish name => trivial

/-- The node that a signal is sent from. -/
inductive Workflow.SentFrom (w : Workflow) : Signal → String → Prop
  | success {name : String} {a : Action} (hReachable : Reachable w.nodes name)
      (hFind : find? w.nodes name = some (.action a)) : SentFrom w (.success (Task.idOf name)) name
  | failure {name : String} {a : Action} (hReachable : Reachable w.nodes name)
      (hFind : find? w.nodes name = some (.action a)) : SentFrom w (.failure (Task.idOf name)) name
  | branch {step : PassedBranch} {d : Decision} (hReachable : Reachable w.nodes step.decision)
      (hFind : find? w.nodes step.decision = some (.decision d))
      (hCase : ∀ index, step.caseIndex = some index → index < d.cases.length) :
      SentFrom w (.branch step) step.decision

namespace Workflow

variable {w : Workflow}

theorem Brings.reachable {signal? : Option Signal} {join? : Option String} {name : String}
    (hBrings : Brings w signal? join? name) : Reachable w.nodes name := by
  obtain ⟨origin, crossings, hPath, -, -⟩ := hBrings.exists_controlPath
  exact hPath.reachable

/-- A signal comes from a node further up. -/
theorem Brings.exists_sentFrom {signal? : Option Signal} {join? : Option String} {name : String}
    (hBrings : Brings w signal? join? name) :
    ∀ signal, signal? = some signal →
      ∃ sender, SentFrom w signal sender ∧
        Relation.TransGen (Leads w.nodes) sender name := by
  induction hBrings with
  | start => exact fun signal hSignal => absurd hSignal (by simp)
  | ok hReachable hFind =>
      rintro signal ⟨⟩
      exact ⟨_, .success hReachable hFind, .single (leads_ok hFind)⟩
  | error hReachable hFind =>
      rintro signal ⟨⟩
      exact ⟨_, .failure hReachable hFind, .single (leads_error hFind)⟩
  | plain _ hCross ih =>
      intro signal hSignal
      obtain ⟨sender, hSender, hLeads⟩ := ih signal hSignal
      exact ⟨sender, hSender, hLeads.tail hCross.leads⟩
  | join _ hCross ih =>
      intro signal hSignal
      obtain ⟨sender, hSender, hLeads⟩ := ih signal hSignal
      exact ⟨sender, hSender, hLeads.tail hCross.leads⟩
  | branch hBrings hCross _ =>
      rintro signal ⟨⟩
      have hLeads := hCross.leads
      have hReachable := hBrings.reachable
      cases hCross with
      | @case d index c hFind hCase =>
          refine ⟨_, .branch hReachable hFind ?_, .single hLeads⟩
          intro other hOther
          cases hOther
          exact (List.getElem?_eq_some_iff.mp hCase).1
      | fallback hFind =>
          exact ⟨_, .branch hReachable hFind (fun _ hOther => by cases hOther), .single hLeads⟩

theorem SentFrom.reachable {signal : Signal} {sender : String} (hSent : SentFrom w signal sender) :
    Reachable w.nodes sender := by
  cases hSent with
  | success hReachable hFind => exact hReachable
  | failure hReachable hFind => exact hReachable
  | branch hReachable hFind hCase => exact hReachable

/-- An outcome is sent from the action that has it. -/
theorem SentFrom.exists_action {signal : Signal} {sender : String}
    (hSent : SentFrom w signal sender)
    {task : String} (hSignal : signal = .success task ∨ signal = .failure task) :
    task = Task.idOf sender ∧ ∃ a, find? w.nodes sender = some (.action a) := by
  cases hSent with
  | success hReachable hFind => exact ⟨by simpa [eq_comm] using hSignal, _, hFind⟩
  | failure hReachable hFind => exact ⟨by simpa [eq_comm] using hSignal, _, hFind⟩
  | branch hReachable hFind hCase => simp at hSignal

theorem legibleName_of_find? {name : String} {node : Node} (hChecked : w.Checked)
    (hFree : w.SeparatorFree) (hFind : find? w.nodes name = some node) :
    Legible name ∧ name ≠ "" := by
  have hMem := mem_of_find? hFind
  rw [← name_of_find? hFind]
  exact ⟨hFree node hMem, hChecked.named.nonempty node hMem⟩

theorem SentFrom.legible {signal : Signal} {sender : String} (hChecked : w.Checked)
    (hFree : w.SeparatorFree) (hSent : SentFrom w signal sender) : signal.Legible := by
  cases hSent with
  | success hReachable hFind => exact legible_idOf _
  | failure hReachable hFind => exact legible_idOf _
  | branch hReachable hFind hCase => exact (legibleName_of_find? hChecked hFree hFind).1

/-- The join crossed on the way to a node is a join. -/
theorem Brings.exists_join {signal? : Option Signal} {join? : Option String} {name : String}
    (hBrings : Brings w signal? join? name) :
    ∀ join, join? = some join →
      ∃ joinName target, find? w.nodes join = some (.join joinName target) := by
  induction hBrings with
  | start => exact fun _ hNone => by cases hNone
  | ok hReachable hFind => exact fun _ hNone => by cases hNone
  | error hReachable hFind => exact fun _ hNone => by cases hNone
  | plain _ _ ih => exact ih
  | join _ hCross _ =>
      rintro _ ⟨⟩
      cases hCross with
      | join hFind => exact ⟨_, _, hFind⟩
  | branch _ _ _ => exact fun _ hNone => by cases hNone

theorem Brings.legible_join {signal? : Option Signal} {join? : Option String} {name : String}
    (hChecked : w.Checked) (hFree : w.SeparatorFree) (hBrings : Brings w signal? join? name) :
    LegibleName join? := by
  intro join hJoin
  obtain ⟨joinName, target, hFind⟩ := hBrings.exists_join join hJoin
  exact legibleName_of_find? hChecked hFree hFind

end Workflow

namespace TaskGraph

variable {g : TaskGraph} {decision : String}

theorem mem_passages {passage : String × Option JoinedSignal} :
    passage ∈ g.passages ↔ ∃ task ∈ g.tasks, ∃ d ∈ task.dependencies, passage ∈ d.passages := by
  simp [passages]

theorem mem_signalsInto {e : JoinedSignal} :
    e ∈ g.signalsInto decision ↔ (decision, some e) ∈ g.passages := by
  unfold signalsInto
  rw [List.mem_filterMap]
  constructor
  · rintro ⟨⟨other, e?⟩, hPassage, hSome⟩
    by_cases hSame : other = decision
    · simp only [hSame, beq_self_eq_true, if_true] at hSome
      rwa [hSame, hSome] at hPassage
    · simp [hSame] at hSome
  · exact fun hPassage => ⟨_, hPassage, by simp⟩

theorem mem_passedDecisions :
    decision ∈ g.passedDecisions ↔ ∃ e?, (decision, e?) ∈ g.passages := by
  simp [passedDecisions]

/-- A decision is passed when one of its branches is. -/
theorem mem_passedDecisions_of_branch {task : Task} {d : Dependency} {step : PassedBranch}
    (hTask : task ∈ g.tasks) (hd : d ∈ task.dependencies) (hStep : step ∈ d.branches) :
    step.decision ∈ g.passedDecisions := by
  have hDecision : step.decision ∈ d.passages.map Prod.fst := by
    rw [d.map_fst_passages]
    exact List.mem_map_of_mem hStep
  obtain ⟨⟨decision, e?⟩, hPassage, rfl⟩ := List.mem_map.mp hDecision
  exact mem_passedDecisions.mpr ⟨e?, mem_passages.mpr ⟨task, hTask, d, hd, hPassage⟩⟩

end TaskGraph

/-- The entries are what control paths bring to the node, and their branches are passed. -/
structure Collects (w : Workflow) (g : TaskGraph) (name : String)
    (entries : List JoinedSignal) : Prop where
  sound : ∀ e ∈ entries, w.Brings (some e.signal) e.join name
  complete : ∀ signal join?, w.Brings (some signal) join? name →
    ∃ e ∈ entries, e.signal.core = signal.core ∧ e.join = join?
  passed : ∀ e ∈ entries, ∀ step, e.signal = .branch step → step.decision ∈ g.passedDecisions

/-- Where nothing is collected, no signal is brought. -/
theorem Collects.not_brings {w : Workflow} {g : TaskGraph} {name : String}
    (hCollects : Collects w g name []) {signal : Signal} {join? : Option String} :
    ¬w.Brings (some signal) join? name := by
  intro hBrings
  obtain ⟨e, hEntry, -⟩ := hCollects.complete signal join? hBrings
  exact absurd hEntry List.not_mem_nil

/-- A branch that only differs from an entry in its guard is of a decision that is passed. -/
theorem Collects.passed_of_core {w : Workflow} {g : TaskGraph} {name : String}
    {entries : List JoinedSignal} (hCollects : Collects w g name entries) {e : JoinedSignal}
    (hEntry : e ∈ entries) {step : PassedBranch}
    (hCore : e.signal.core = (Signal.branch step).core) :
    step.decision ∈ g.passedDecisions := by
  cases hSignal : e.signal with
  | success task =>
      rw [hSignal] at hCore
      cases hCore
  | failure task =>
      rw [hSignal] at hCore
      cases hCore
  | branch other =>
      rw [hSignal] at hCore
      injection hCore with hSame
      injection hSame with hDecision
      rw [← hDecision]
      exact hCollects.passed e hEntry other hSignal

namespace Transformed

variable {w : Workflow} {options : TaskOptions} {g : TaskGraph}

/-- What a task waits on has been brought to its node. -/
theorem brings_of_joinedSignal (hTransformed : Transformed w options g) {task : Task}
    (hTask : task ∈ g.tasks) {e : JoinedSignal} (he : e ∈ joinedSignals task.dependencies) :
    w.Brings (some e.signal) e.join task.source := by
  obtain ⟨d, hd, hJoined⟩ := Dependency.mem_joinedSignals.mp he
  obtain ⟨hSignal, hJoin⟩ := Dependency.joined?_eq_some_iff.mp hJoined
  obtain ⟨-, origin, crossings, hPath, rfl⟩ := (hTransformed.sound task hTask).arrives d hd
  rw [← hSignal, ← hJoin]
  exact hPath.brings

/-- What a decision waits on has been brought to it. -/
theorem brings_of_signalInto (hTransformed : Transformed w options g) {decision : String}
    {e : JoinedSignal} (he : e ∈ g.signalsInto decision) :
    w.Brings (some e.signal) e.join decision := by
  obtain ⟨task, hTask, d, hd, hPassage⟩ :=
    TaskGraph.mem_passages.mp (TaskGraph.mem_signalsInto.mp he)
  obtain ⟨-, origin, crossings, hPath, rfl⟩ := (hTransformed.sound task hTask).arrives d hd
  obtain ⟨before, _, _, _, _, hBefore, -, -, hJoined⟩ := hPath.exists_of_passage hPassage
  obtain ⟨hSignal, hJoin⟩ := Dependency.joined?_eq_some_iff.mp hJoined.symm
  rw [← hSignal, ← hJoin]
  exact hBefore.brings

/-- The entries of a task are what control paths bring to its node. -/
theorem collects_task (hTransformed : Transformed w options g) (hChecked : w.Checked)
    (hNames : w.SeparableNames) {task : Task} (hTask : task ∈ g.tasks) :
    Collects w g task.source (joinedSignals task.dependencies) where
  sound := fun _ he => hTransformed.brings_of_joinedSignal hTask he
  complete := by
    intro signal join? hBrings
    obtain ⟨origin, crossings, hPath, hSignal, hJoin⟩ := hBrings.exists_controlPath
    have hTraced := Dependency.isBare_of_signal? hSignal
    have hd := hTransformed.trace_mem hChecked hNames hTask hPath hTraced
    refine ⟨⟨signal, join?⟩, Dependency.mem_joinedSignals.mpr ⟨_, hd, ?_⟩, rfl, rfl⟩
    exact Dependency.joined?_eq_some_iff.mpr ⟨hSignal, hJoin⟩
  passed := by
    intro e he step hStep
    obtain ⟨d, hd, hJoined⟩ := Dependency.mem_joinedSignals.mp he
    have hSignal := (Dependency.joined?_eq_some_iff.mp hJoined).1
    rw [hStep] at hSignal
    exact TaskGraph.mem_passedDecisions_of_branch hTask hd
      (Dependency.mem_branches_of_signal? hSignal)

/-- The entries of a decision that is passed are what control paths bring to it. -/
theorem collects_decision (hTransformed : Transformed w options g) (hChecked : w.Checked)
    (hNames : w.SeparableNames) {decision : String} (hPassed : decision ∈ g.passedDecisions) :
    Collects w g decision (g.signalsInto decision) where
  sound := fun _ he => hTransformed.brings_of_signalInto he
  complete := by
    intro signal join? hBrings
    obtain ⟨before, way, hBefore, hSignal, hJoin⟩ := hBrings.exists_controlPath
    obtain ⟨e?, hSome⟩ := TaskGraph.mem_passedDecisions.mp hPassed
    obtain ⟨task, hTask, d, hd, hPassage⟩ := TaskGraph.mem_passages.mp hSome
    obtain ⟨-, origin, crossings, hPath, rfl⟩ := (hTransformed.sound task hTask).arrives d hd
    -- The path to the decision goes on to the task as the dependency does.
    obtain ⟨longer, hLonger, hOwn⟩ := hPath.passage_of_passage hPassage hBefore
    have hTraced : Walk.isBare (Crossing.trace before longer) = false := by
      rw [Bool.eq_false_iff]
      intro hBare
      have hBranches := (Bool.and_eq_true_iff.mp hBare).2
      rw [List.isEmpty_iff] at hBranches
      simp [Dependency.passages, Dependency.passagesFrom, hBranches] at hOwn
    have hd := hTransformed.trace_mem hChecked hNames hTask hLonger hTraced
    have hJoined : (Crossing.trace before way).joined? = some ⟨signal, join?⟩ :=
      Dependency.joined?_eq_some_iff.mpr ⟨hSignal, hJoin⟩
    refine ⟨⟨signal, join?⟩, ?_, rfl, rfl⟩
    rw [hJoined] at hOwn
    exact TaskGraph.mem_signalsInto.mpr (TaskGraph.mem_passages.mpr ⟨task, hTask, _, hd, hOwn⟩)
  passed := by
    rintro ⟨signal, join?⟩ he step rfl
    obtain ⟨task, hTask, d, hd, hPassage⟩ :=
      TaskGraph.mem_passages.mp (TaskGraph.mem_signalsInto.mp he)
    exact TaskGraph.mem_passedDecisions_of_branch hTask hd
      (Dependency.mem_branches_of_passage hPassage)

/-- The task of an action ends no run. -/
theorem isKill_of_action (hTransformed : Transformed w options g) {task : Task}
    (hTask : task ∈ g.tasks) {a : Action}
    (hFind : Workflow.find? w.nodes task.source = some (.action a)) :
    task.body.isKill = false := by
  obtain ⟨node, owner, hNode, hOwner, hBody⟩ := (hTransformed.sound task hTask).owned
  cases hFind.symm.trans hNode
  cases hOwner
  obtain ⟨params, -, hSame⟩ := map_eq_ok_iff.mp hBody
  rw [← hSame]
  rfl

/-- A decision that a dependency passes is a node that can be reached. -/
theorem decision_of_passed (hTransformed : Transformed w options g) {decision : String}
    (hPassed : decision ∈ g.passedDecisions) :
    Workflow.Reachable w.nodes decision ∧
      ∃ d, Workflow.find? w.nodes decision = some (.decision d) := by
  obtain ⟨e?, hSome⟩ := TaskGraph.mem_passedDecisions.mp hPassed
  obtain ⟨task, hTask, d, hd, hPassage⟩ := TaskGraph.mem_passages.mp hSome
  obtain ⟨-, origin, crossings, hPath, rfl⟩ := (hTransformed.sound task hTask).arrives d hd
  obtain ⟨before, _, _, _, _, hBefore, hBranch, -, -⟩ := hPath.exists_of_passage hPassage
  exact ⟨hBefore.reachable, hBranch.exists_decision.2⟩

/-- A decision that can be reached has a record, made of its own cases. -/
theorem exists_recordOf? (hTransformed : Transformed w options g) {decision : String}
    {d : Decision} (hReachable : Workflow.Reachable w.nodes decision)
    (hFind : Workflow.find? w.nodes decision = some (.decision d)) :
    ∃ record, g.recordOf? decision = some record := by
  obtain ⟨record, hRecord, hDecision⟩ := hTransformed.recorded decision d hReachable hFind
  apply Option.isSome_iff_exists.mp
  unfold TaskGraph.recordOf?
  rw [List.find?_isSome]
  exact ⟨record, List.mem_reverse.mpr hRecord, beq_iff_eq.mpr hDecision⟩

theorem eq_recordOf (hTransformed : Transformed w options g) {record : ResolvedDecision}
    (hRecord : record ∈ g.decisions) {d : Decision}
    (hFind : Workflow.find? w.nodes record.decision = some (.decision d)) :
    ∃ selection, record = Walk.recordOf d selection := by
  obtain ⟨other, hOther, hResolve⟩ := hTransformed.resolved record hRecord
  cases hFind.symm.trans hOther
  unfold Walk.resolveDecision at hResolve
  split at hResolve
  · cases hResolve
  · dsimp only at hResolve
    split at hResolve
    · cases hResolve
    · exact ⟨_, (Except.ok.inj hResolve).symm⟩

end Transformed

namespace Wiring

variable {w : Workflow} {options : TaskOptions} {g : TaskGraph} {plans : List BranchPlan}
  {taken taken' : List String}

theorem Planned.nodup_decisions (hPlanned : Planned g g.passedDecisions taken plans taken') :
    (plans.map fun plan => plan.record.decision).Nodup := by
  rw [hPlanned.decisions]
  exact nodup_eraseDups _

theorem Planned.exists_plan (hPlanned : Planned g g.passedDecisions taken plans taken')
    {decision : String} (hPassed : decision ∈ g.passedDecisions) :
    ∃ plan ∈ plans, plan.record.decision = decision := by
  rw [← hPlanned.decisions] at hPassed
  exact List.mem_map.mp hPassed

theorem Planned.passed (hPlanned : Planned g g.passedDecisions taken plans taken')
    {plan : BranchPlan} (hPlan : plan ∈ plans) : plan.record.decision ∈ g.passedDecisions := by
  rw [← hPlanned.decisions]
  exact List.mem_map_of_mem hPlan

/-- A plan has a dummy for every branch of its decision. -/
theorem Planned.exists_dummy (hPlanned : Planned g g.passedDecisions taken plans taken')
    (hTransformed : Transformed w options g) {plan : BranchPlan} (hPlan : plan ∈ plans)
    {d : Decision} (hFind : Workflow.find? w.nodes plan.record.decision = some (.decision d))
    {caseIndex : Option Nat} (hCase : ∀ index, caseIndex = some index → index < d.cases.length) :
    ∃ id, plan.branch? caseIndex = some id := by
  cases caseIndex with
  | none => exact ⟨plan.fallback, rfl⟩
  | some index =>
      obtain ⟨hMem, -⟩ := TaskGraph.mem_of_recordOf? (hPlanned.recorded plan hPlan)
      obtain ⟨selection, hRecord⟩ := hTransformed.eq_recordOf hMem hFind
      have hLength : plan.cases.length = d.cases.length := by
        rw [hPlanned.cases plan hPlan, hRecord]
        simp [Walk.recordOf]
      have hIndex : index < plan.cases.length := hLength ▸ hCase index rfl
      exact ⟨plan.cases[index], List.getElem?_eq_getElem hIndex⟩

/-- A signal that a node sends is sent by an operator, if its decision is passed. -/
theorem Planned.sent (hPlanned : Planned g g.passedDecisions taken plans taken')
    (hChecked : w.Checked) (hFree : w.SeparatorFree) (hTransformed : Transformed w options g)
    {signal : Signal} {name : String} (hSent : w.SentFrom signal name)
    (hPassed : ∀ step, signal = .branch step → step.decision ∈ g.passedDecisions) :
    Sent g plans signal where
  legible := hSent.legible hChecked hFree
  sender := by
    cases hSent with
    | success hReachable hFind => exact ⟨_, rfl⟩
    | failure hReachable hFind => exact ⟨_, rfl⟩
    | @branch step d hReachable hFind hCase =>
        obtain ⟨plan, hPlan, hDecision⟩ := hPlanned.exists_plan (hPassed step rfl)
        obtain ⟨id, hId⟩ := hPlanned.exists_dummy hTransformed hPlan (hDecision ▸ hFind) hCase
        exact ⟨id, sender_of_plan hPlanned.nodup_decisions hPlan hDecision hId⟩
  task := by
    intro task hSignal
    obtain ⟨rfl, a, hFind⟩ := hSent.exists_action hSignal
    obtain ⟨t, ht, rfl⟩ := hTransformed.covered name _ _ hSent.reachable hFind rfl
    exact ⟨t, ht, (hTransformed.sound t ht).id, hTransformed.isKill_of_action ht hFind⟩

/-- The arrivals made of what control paths bring are made of signals that are sent. -/
theorem Planned.expected (hPlanned : Planned g g.passedDecisions taken plans taken')
    (hChecked : w.Checked) (hFree : w.SeparatorFree) (hTransformed : Transformed w options g)
    {name : String} {entries : List JoinedSignal} (hCollects : Collects w g name entries)
    {arrival : Arrival} (hArrival : arrival ∈ Arrival.group entries) :
    Expected g plans arrival where
  sent := by
    intro signal hSignal
    have hEntry := Arrival.mem_of_mem_group hArrival hSignal
    obtain ⟨sender, hSender, -⟩ := (hCollects.sound _ hEntry).exists_sentFrom signal rfl
    exact hPlanned.sent hChecked hFree hTransformed hSender (hCollects.passed _ hEntry)
  join := by
    obtain ⟨signal, hSignal⟩ :=
      List.exists_mem_of_ne_nil _ (Arrival.signals_ne_nil_of_mem_group hArrival)
    exact (hCollects.sound _ (Arrival.mem_of_mem_group hArrival hSignal)).legible_join hChecked
      hFree

end Wiring

/-- A transformed workflow with the plans of its decisions and its operators. -/
structure Assembled (w : Workflow) (options : TaskOptions) (g : TaskGraph)
    (plans : List Wiring.BranchPlan) (operators : List Operator) : Prop where
  checked : w.Checked
  free : w.SeparatorFree
  transformed : Transformed w options g
  planned : ∃ taken, Wiring.Planned g g.passedDecisions (g.tasks.map Task.id) plans taken
  wired : Wiring.Wired g plans operators

/-- A transformed workflow has operators: its decisions are planned and its signals are sent. -/
theorem Transformed.exists_assembled {w : Workflow} {options : TaskOptions} {g : TaskGraph}
    (hTransformed : Transformed w options g) (hChecked : w.Checked) (hFree : w.SeparatorFree) :
    ∃ plans operators, g.operators = .ok operators ∧ Assembled w options g plans operators := by
  have hRecords : ∀ decision ∈ g.passedDecisions, ∃ record, g.recordOf? decision = some record := by
    intro decision hPassed
    obtain ⟨hReachable, d, hFind⟩ := hTransformed.decision_of_passed hPassed
    exact hTransformed.exists_recordOf? hReachable hFind
  obtain ⟨⟨plans, taken⟩, hPlans⟩ :=
    Wiring.planBranches_total g.passedDecisions hRecords (g.tasks.map Task.id)
  have hPlanned := Wiring.planBranches_spec _ hPlans
  have hWireable : Wiring.Wireable g plans := by
    constructor
    · intro plan hPlan arrival hArrival
      exact hPlanned.expected hChecked hFree hTransformed
        (hTransformed.collects_decision hChecked hFree.separableNames (hPlanned.passed hPlan))
        hArrival
    · intro task hTask arrival hArrival
      exact hPlanned.expected hChecked hFree hTransformed
        (hTransformed.collects_task hChecked hFree.separableNames hTask) hArrival
  obtain ⟨operators, hOperators, hWired⟩ :=
    Wiring.exists_wired hTransformed.ids hPlans hWireable
  exact ⟨plans, operators, hOperators, hChecked, hFree, hTransformed, ⟨taken, hPlanned⟩, hWired⟩

end WorkflowDag
