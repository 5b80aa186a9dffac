import WorkflowDag.Proofs.WalkCover

/-!
# Dependencies are the traces of control paths

The walk from the start makes the tasks of a workflow.  `Transformed` says what it leaves when it
succeeds, in terms of the workflow alone; later statements rest on it and not on the walk.

Main statement: the dependencies of a task are the traces of the control paths to its node, up to
keys, with each key once (`dependencies_are_control_paths`).  Only control that comes from the start
without passing a decision leaves no dependency.
-/

namespace WorkflowDag

/-- The node is an action or a kill that can be reached. -/
def Workflow.OwnsTask (w : Workflow) (name : String) : Prop :=
  Reachable w.nodes name ∧
    ∃ node, find? w.nodes name = some node ∧ (node.kind = .action ∨ node.kind = .kill)

/-- What the tasks and records of a workflow owe to its nodes. -/
structure Transformed (w : Workflow) (options : TaskOptions) (g : TaskGraph) : Prop where
  sound : ∀ task ∈ g.tasks, Walk.TaskSound w (Walk.scopeOf w options) task
  ids : (g.tasks.map Task.id).Nodup
  resolved : ∀ record ∈ g.decisions, ∃ d, Workflow.find? w.nodes record.decision =
    some (.decision d) ∧ Walk.resolveDecision options (Walk.scopeOf w options) d = .ok record
  recordedOnce : (g.decisions.map ResolvedDecision.decision).Nodup
  covered : ∀ name node owner, Workflow.Reachable w.nodes name →
    Workflow.find? w.nodes name = some node → Walk.Owner.ofNode? node = some owner →
    ∃ task ∈ g.tasks, task.source = name
  keyed : ∀ task ∈ g.tasks, ∀ origin crossings, w.ControlPath origin crossings task.source →
    Walk.isBare (Crossing.trace origin crossings) = false →
    ∃ d ∈ task.dependencies, d.key = (Crossing.trace origin crossings).key
  recorded : ∀ name d, Workflow.Reachable w.nodes name →
    Workflow.find? w.nodes name = some (.decision d) →
    ∃ record ∈ g.decisions, record.decision = name
  outside : ∀ name, name = Node.startName ∨
      Workflow.find? w.nodes Node.startName = some (.start name) →
    ∀ joinName target, Workflow.find? w.nodes name ≠ some (.join joinName target)

/-- A node with a task is an action or a kill. -/
theorem Walk.Owner.exists_hasTask_of_handled {w : Workflow} {known : Set Walk.Token}
    {s : Walk.State} {token : Walk.Token} {node : Node} {owner : Walk.Owner}
    (hOwner : Walk.Owner.ofNode? node = some owner)
    (hHandled : Walk.Handled w known s token node) : Walk.HasTask s token := by
  cases node with
  | action a => exact hHandled.1
  | kill killName message => exact hHandled
  | start target => cases hOwner
  | decision d => cases hOwner
  | fork f => cases hOwner
  | join joinName target => cases hOwner
  | finish endName => cases hOwner

namespace Transformed

variable {w : Workflow} {options : TaskOptions} {g : TaskGraph}

/-- Tasks of the same node are the same. -/
theorem eq_of_source (hSound : ∀ task ∈ g.tasks, Walk.TaskSound w (Walk.scopeOf w options) task)
    (hIds : (g.tasks.map Task.id).Nodup) {first second : Task} (hFirst : first ∈ g.tasks)
    (hSecond : second ∈ g.tasks) (hSource : first.source = second.source) : first = second := by
  apply List.inj_on_of_nodup_map hIds hFirst hSecond
  rw [(hSound first hFirst).id, (hSound second hSecond).id, hSource]

/-- Making the tasks of a checked workflow gives each of them what its node asks for. -/
theorem of_ofWorkflow (hChecked : w.Checked)
    (hGraph : (TaskGraph.ofWorkflow w options).result = .ok g) : Transformed w options g := by
  obtain ⟨s, hWalked, rfl⟩ := Walk.exists_walked_of_ofWorkflow hGraph
  have hStart : Walk.VisitSound w (Node.startName, [⟨none, .success, [], none⟩]) := by
    refine ⟨Workflow.Reachable.start w.nodes, ?_⟩
    intro d hd
    rw [List.mem_singleton.mp hd]
    exact ⟨.start, [], .start, rfl⟩
  have hSound := hWalked.sound hChecked.nested
    (fun visit hVisit => List.mem_singleton.mp hVisit ▸ hStart) Walk.Sound.empty
  obtain ⟨seen, hComplete, hSeen⟩ := hWalked.complete
  refine ⟨hSound.tasks, hSound.ids, hSound.decisions, hSound.recorded, ?_, ?_, ?_, ?_⟩
  · intro name node owner hName hFind hOwner
    obtain ⟨d?, hToken⟩ := hComplete.reachable hSeen hName
    obtain ⟨task, hTask, hSource, -⟩ :=
      Walk.Owner.exists_hasTask_of_handled hOwner (hComplete.handled _ hToken node hFind)
    exact ⟨task, hTask, hSource⟩
  · intro task hTask origin crossings hPath hTrace
    obtain ⟨node, owner, hFind, hOwner, -⟩ := (hSound.tasks task hTask).owned
    obtain ⟨other, hOther, hSource, hKeys⟩ := Walk.Owner.exists_hasTask_of_handled hOwner
      (hComplete.handled _ (hComplete.controlPath hSeen hPath) node hFind)
    have hSame : other = task := eq_of_source (g := ⟨w.name, s.tasks, s.decisions, _⟩)
      hSound.tasks hSound.ids hOther hTask hSource
    rw [← hSame]
    exact hKeys _ rfl hTrace
  · intro name d hName hFind
    obtain ⟨d?, hToken⟩ := hComplete.reachable hSeen hName
    exact (hComplete.handled _ hToken _ hFind).1
  · -- Nothing has been forked yet at the start and right behind it.
    rintro name (rfl | hStart)
    · exact hWalked.ne_join rfl
    · exact (hWalked.next hStart).ne_join rfl

theorem exists_task (hTransformed : Transformed w options g) {name : String}
    (hOwns : w.OwnsTask name) : ∃ task ∈ g.tasks, task.source = name := by
  obtain ⟨hReachable, node, hFind, hKind⟩ := hOwns
  obtain ⟨owner, hOwner⟩ : ∃ owner, Walk.Owner.ofNode? node = some owner := by
    cases node <;> simp_all [Node.kind, Walk.Owner.ofNode?]
  exact hTransformed.covered name node owner hReachable hFind hOwner

theorem ownsTask (hTransformed : Transformed w options g) {task : Task} (hTask : task ∈ g.tasks) :
    w.OwnsTask task.source := by
  have hSound := hTransformed.sound task hTask
  obtain ⟨node, owner, hFind, hOwner, -⟩ := hSound.owned
  refine ⟨hSound.reachable, node, hFind, ?_⟩
  cases node <;> simp_all [Node.kind, Walk.Owner.ofNode?]

/-- Nodes with tasks have different task ids. -/
theorem eq_of_idOf (hTransformed : Transformed w options g) {first second : String}
    (hFirst : w.OwnsTask first) (hSecond : w.OwnsTask second)
    (hId : Task.idOf first = Task.idOf second) : first = second := by
  obtain ⟨task, hTask, rfl⟩ := hTransformed.exists_task hFirst
  obtain ⟨task', hTask', rfl⟩ := hTransformed.exists_task hSecond
  have hSame : task = task' := by
    apply List.inj_on_of_nodup_map hTransformed.ids hTask hTask'
    rw [(hTransformed.sound task hTask).id, (hTransformed.sound task' hTask').id, hId]
  rw [hSame]

end Transformed

/-- The dependencies of a task are exactly the control paths to its node: each is the trace of one,
each path but a plain one from the start has its key among them, and no key occurs twice. -/
theorem dependencies_are_control_paths {source : String} {w : Workflow} {options : TaskOptions}
    {g : TaskGraph} (hRead : (Workflow.read source).result = .ok w)
    (hGraph : (TaskGraph.ofWorkflow w options).result = .ok g) {task : Task}
    (hTask : task ∈ g.tasks) :
    (∀ d ∈ task.dependencies, ∃ origin crossings,
      w.ControlPath origin crossings task.source ∧ Crossing.trace origin crossings = d) ∧
    (∀ origin crossings, w.ControlPath origin crossings task.source →
      (origin ≠ .start ∨
        ∃ decision caseIndex guard, Crossing.branch decision caseIndex guard ∈ crossings) →
      ∃ d ∈ task.dependencies, d.key = (Crossing.trace origin crossings).key) ∧
    (task.dependencies.map Dependency.key).Nodup := by
  have hTransformed := Transformed.of_ofWorkflow (Workflow.checked_of_read hRead) hGraph
  have hSound := hTransformed.sound task hTask
  refine ⟨fun d hd => (hSound.arrives d hd).2, ?_, hSound.keys⟩
  intro origin crossings hPath hTraced
  exact hTransformed.keyed task hTask origin crossings hPath (Crossing.isBare_trace hTraced)

namespace Sample

/-- The units of a document in which control comes to one kill in four ways: through either branch
of a decision, on the error of an action, and behind the join of the two. -/
def units : List Char :=
  ["<w name='w'>",
    "<start to='f'/>",
    "<fork name='f'><path start='a'/><path start='d'/></fork>",
    "<action name='a'><x/><ok to='j'/><error to='k'/></action>",
    "<decision name='d'>",
    "<switch><case to='j'>true</case><default to='k'/></switch>",
    "</decision>",
    "<join name='j' to='k'/>",
    "<kill name='k'/>",
    "</w>"].flatMap String.toList

/-- The document with these units. -/
def source : String :=
  String.ofList units

/-- The workflow of the document. -/
def workflow : Workflow where
  name := "w"
  nodes :=
    [.start "f", .fork ⟨"f", ["a", "d"], none⟩,
      .action { name := "a", actionType := "x", ok := "j", error := "k" },
      .decision ⟨"d", [⟨"true", "j"⟩], "k"⟩, .join "j" "k", .kill "k" ""]
  closingJoins := [("f", "j")]
  defaults := .empty

/-- The task of the action, which is reached from the start without passing a decision. -/
def action : Task where
  id := "a"
  source := "a"
  body := .action "x" {}

/-- The task of the kill. -/
def kill : Task where
  id := "k"
  source := "k"
  body := .kill ""
  dependencies :=
    [⟨some "a", .failure, [], none⟩,
      ⟨none, .success, [⟨"d", none, none, none⟩], none⟩,
      ⟨some "a", .success, [], some "j"⟩,
      ⟨none, .success, [⟨"d", some 0, some "true", none⟩], some "j"⟩]

/-- The tasks of the workflow and the selection at its decision. -/
def graph : TaskGraph where
  workflow := "w"
  tasks := [action, kill]
  decisions := [⟨"d", [⟨"true", "j", some "true"⟩], "k", "j", some 0⟩]

/-- The nodes of the document are those of the workflow. -/
theorem read_source : (Workflow.read source).result = .ok workflow :=
  Workflow.read_ofList (by decide +kernel)

theorem ofWorkflow_workflow : (TaskGraph.ofWorkflow workflow {}).result = .ok graph := by
  decide +kernel

end Sample

theorem dependencies_are_control_paths_kill :
    (Workflow.read Sample.source).result = .ok Sample.workflow ∧
    (TaskGraph.ofWorkflow Sample.workflow {}).result = .ok Sample.graph ∧
    Sample.kill ∈ Sample.graph.tasks ∧
    (∀ d ∈ Sample.kill.dependencies, ∃ origin crossings,
      Sample.workflow.ControlPath origin crossings "k" ∧ Crossing.trace origin crossings = d) ∧
    (Sample.kill.dependencies.map Dependency.key).Nodup := by
  have hTask : Sample.kill ∈ Sample.graph.tasks :=
    List.mem_cons_of_mem _ (List.mem_singleton.mpr rfl)
  have hPaths := dependencies_are_control_paths Sample.read_source Sample.ofWorkflow_workflow hTask
  exact ⟨Sample.read_source, Sample.ofWorkflow_workflow, hTask, hPaths.1, hPaths.2.2⟩

end WorkflowDag
