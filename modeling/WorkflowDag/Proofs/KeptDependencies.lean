import WorkflowDag.Proofs.DependencyPaths
import WorkflowDag.Proofs.KeyTexts

/-!
# Control paths that a task keeps apart

A task holds one dependency for each key, and a key is a text with the names of joins and decisions
in it.  Where no join is named with `>` or `|` and no decision with `/`, the traces of control paths
can be read back from their keys (`ControlPath.eq_of_key`): the case of a branch shows the guard as
well, since both belong to the same decision.

Main statement: with such names, the dependencies of a task are exactly the traces of the control
paths to its node (`every_trace_kept`).  With other names two of them may have the same key, and
then only the first is kept (`slashed_decision_loses_trace`).
-/

namespace WorkflowDag

/-- The name of the node cannot be mistaken in the key of a dependency, where a join stands before
an arrow or behind a bar, and a decision before a slash. -/
def Node.SeparableName : Node → Prop
  | .join name _ => '>' ∉ name.toList ∧ '|' ∉ name.toList
  | .decision d => '/' ∉ d.name.toList
  | _ => True

instance : DecidablePred Node.SeparableName := fun node =>
  match node with
  | .join name _ => inferInstanceAs (Decidable ('>' ∉ name.toList ∧ '|' ∉ name.toList))
  | .decision d => inferInstanceAs (Decidable ('/' ∉ d.name.toList))
  | .start _ => isTrue trivial
  | .action _ => isTrue trivial
  | .fork _ => isTrue trivial
  | .kill _ _ => isTrue trivial
  | .finish _ => isTrue trivial

namespace Crossing

/-- A branch in a trace has been crossed. -/
theorem exists_branch_of_branches (crossings : List Crossing) :
    ∀ last : Option String, branches last crossings ≠ [] →
      ∃ decision caseIndex guard, branch decision caseIndex guard ∈ crossings := by
  induction crossings with
  | nil => exact fun last hBranches => absurd rfl hBranches
  | cons first rest ih =>
      intro last hBranches
      cases first with
      | branch decision caseIndex guard =>
          exact ⟨decision, caseIndex, guard, List.mem_cons_self⟩
      | plain =>
          obtain ⟨decision, caseIndex, guard, hMem⟩ := ih last hBranches
          exact ⟨decision, caseIndex, guard, List.mem_cons_of_mem _ hMem⟩
      | join name =>
          obtain ⟨decision, caseIndex, guard, hMem⟩ := ih (some name) hBranches
          exact ⟨decision, caseIndex, guard, List.mem_cons_of_mem _ hMem⟩

/-- A way that leaves a trace comes from an action or passes a branch. -/
theorem traced_of_isBare {origin : Origin} {crossings : List Crossing}
    (hTrace : Walk.isBare (trace origin crossings) = false) :
    origin ≠ .start ∨
      ∃ decision caseIndex guard, branch decision caseIndex guard ∈ crossings := by
  cases origin with
  | outcome action result => exact Or.inl nofun
  | start =>
      refine Or.inr (exists_branch_of_branches crossings none ?_)
      intro hNone
      simp [Walk.isBare, trace, hNone, Origin.task?] at hTrace

end Crossing

namespace Workflow

/-- No name of a join or of a decision can be mistaken in the key of a dependency. -/
def SeparableNames (w : Workflow) : Prop :=
  ∀ node ∈ w.nodes, node.SeparableName

instance (w : Workflow) : Decidable w.SeparableNames :=
  List.decidableBAll Node.SeparableName w.nodes

/-- The guard of a branch of a decision. -/
def guardAt (w : Workflow) (decision : String) (caseIndex : Option Nat) : Option String :=
  match find? w.nodes decision with
  | some (.decision d) => (caseIndex.bind fun index => d.cases[index]?).map GuardedCase.guard
  | _ => none

/-- A branch with the guard that it has in the workflow. -/
def restoreGuard (w : Workflow) (b : PassedBranch) : PassedBranch :=
  { b with guard := w.guardAt b.decision b.caseIndex }

section

variable {w : Workflow} {origin : Origin} {crossings : List Crossing} {name : String}

/-- A branch is crossed with its own guard, at a decision. -/
theorem Crosses.guard_eq {decision target : String} {caseIndex : Option Nat}
    {guard : Option String} (hCross : Crosses w name (.branch decision caseIndex guard) target) :
    guard = w.guardAt decision caseIndex := by
  cases hCross with
  | case hFind hCase => simp [guardAt, hFind, hCase]
  | fallback hFind => simp [guardAt, hFind]

/-- The join in the trace of a control path is one. -/
theorem ControlPath.join_of_trace (hPath : ControlPath w origin crossings name) :
    ∀ join, (Crossing.trace origin crossings).join = some join →
      ∃ joinName target, find? w.nodes join = some (.join joinName target) := by
  induction hPath with
  | start => exact fun _ hNone => nomatch hNone
  | ok hReachable hFind => exact fun _ hNone => nomatch hNone
  | error hReachable hFind => exact fun _ hNone => nomatch hNone
  | cross _ hCross ih =>
      intro join hJoin
      rw [Crossing.trace_concat] at hJoin
      cases hCross with
      | start hFind => exact ih join hJoin
      | fork hFind hMem => exact ih join hJoin
      | join hFind =>
          cases hJoin
          exact ⟨_, _, hFind⟩
      | case hFind hCase => exact nomatch hJoin
      | fallback hFind => exact nomatch hJoin

/-- What a control path is traced with can be found again in the key of its trace. -/
theorem ControlPath.separable (hChecked : w.Checked) (hNames : w.SeparableNames)
    (hPath : ControlPath w origin crossings name) :
    (Crossing.trace origin crossings).Separable := by
  have hNonempty : ∀ {other : String} {node : Node}, find? w.nodes other = some node →
      other ≠ "" := by
    intro other node hFind
    rw [← name_of_find? hFind]
    exact hChecked.named.nonempty node (mem_of_find? hFind)
  have hJoins : ∀ {other joinName target : String},
      find? w.nodes other = some (.join joinName target) →
      other ≠ "" ∧ '>' ∉ other.toList ∧ '|' ∉ other.toList := by
    intro other joinName target hFind
    have hName : joinName = other := name_of_find? hFind
    exact ⟨hNonempty hFind, hName ▸ hNames _ (mem_of_find? hFind)⟩
  have hAction : ∀ {action : String} {node : Node}, find? w.nodes action = some node →
      NamedWithout '|' (some (Task.idOf action)) := by
    rintro action node hFind _ ⟨⟩
    exact ⟨Task.idOf_ne_empty (hNonempty hFind), legible_idOf action '|' (by decide)⟩
  induction hPath with
  | start => exact ⟨.none, fun _ hMem => absurd hMem List.not_mem_nil, .none⟩
  | ok hReachable hFind =>
      exact ⟨hAction hFind, fun _ hMem => absurd hMem List.not_mem_nil, .none⟩
  | error hReachable hFind =>
      exact ⟨hAction hFind, fun _ hMem => absurd hMem List.not_mem_nil, .none⟩
  | @cross origin crossings crossing name target hPath hCross ih =>
      rw [Crossing.trace_concat]
      cases crossing with
      | plain => exact ih
      | join joinName =>
          refine ⟨ih.origin, ih.branches, ?_⟩
          rintro _ ⟨⟩
          cases hCross with
          | join hFind => exact ⟨(hJoins hFind).1, (hJoins hFind).2.2⟩
      | branch decision caseIndex guard =>
          refine ⟨ih.origin, ?_, .none⟩
          intro b hb
          rcases List.mem_append.mp hb with hOld | hNew
          · exact ih.branches b hOld
          · rw [List.mem_singleton.mp hNew]
            obtain ⟨rfl, d, hFind⟩ := hCross.exists_decision
            have hName : d.name = name := name_of_find? hFind
            refine ⟨hName ▸ hNames _ (mem_of_find? hFind), ?_⟩
            -- The join of the way before it is what the branch carries.
            intro join hJoin
            obtain ⟨joinName, target, hFind⟩ := hPath.join_of_trace join hJoin
            exact ⟨(hJoins hFind).1, (hJoins hFind).2.1⟩

/-- The guards in the trace of a control path are those of the workflow. -/
theorem ControlPath.restoreGuard_trace (hPath : ControlPath w origin crossings name) :
    (Crossing.trace origin crossings).unguarded.branches.map w.restoreGuard =
      (Crossing.trace origin crossings).branches := by
  induction hPath with
  | start => rfl
  | ok hReachable hFind => rfl
  | error hReachable hFind => rfl
  | @cross origin crossings crossing name target _ hCross ih =>
      rw [Crossing.trace_concat]
      cases crossing with
      | plain => exact ih
      | join joinName => exact ih
      | branch decision caseIndex guard =>
          rw [hCross.guard_eq]
          simp only [Crossing.extend, Dependency.unguarded, List.map_append, List.map_cons,
            List.map_nil] at ih ⊢
          rw [ih]
          rfl

/-- Control paths with the same key have the same trace. -/
theorem ControlPath.eq_of_key (hChecked : w.Checked) (hNames : w.SeparableNames)
    (hPath : ControlPath w origin crossings name) {origin' : Origin} {crossings' : List Crossing}
    {name' : String} (hPath' : ControlPath w origin' crossings' name')
    (hKey : (Crossing.trace origin crossings).key = (Crossing.trace origin' crossings').key) :
    Crossing.trace origin crossings = Crossing.trace origin' crossings' := by
  have hSame := (hPath.separable hChecked hNames).unguarded_eq_of_key
    (hPath'.separable hChecked hNames) hKey
  have hBranches := hPath.restoreGuard_trace
  rw [hSame, hPath'.restoreGuard_trace] at hBranches
  have hOrigin := congrArg Dependency.origin hSame
  have hOutcome := congrArg Dependency.outcome hSame
  have hJoin := congrArg Dependency.join hSame
  generalize Crossing.trace origin crossings = d at *
  generalize Crossing.trace origin' crossings' = e at *
  obtain ⟨dOrigin, dOutcome, dBranches, dJoin⟩ := d
  obtain ⟨eOrigin, eOutcome, eBranches, eJoin⟩ := e
  cases hBranches
  cases hOrigin
  cases hOutcome
  cases hJoin
  rfl

end

end Workflow

/-- A control path that leaves a trace leaves it in the task at its end. -/
theorem Transformed.trace_mem {w : Workflow} {options : TaskOptions} {g : TaskGraph}
    (hTransformed : Transformed w options g) (hChecked : w.Checked) (hNames : w.SeparableNames)
    {task : Task} (hTask : task ∈ g.tasks) {origin : Origin} {crossings : List Crossing}
    (hPath : w.ControlPath origin crossings task.source)
    (hTraced : Walk.isBare (Crossing.trace origin crossings) = false) :
    Crossing.trace origin crossings ∈ task.dependencies := by
  obtain ⟨d, hd, hKey⟩ := hTransformed.keyed task hTask origin crossings hPath hTraced
  obtain ⟨-, other, way, hWay, rfl⟩ := (hTransformed.sound task hTask).arrives d hd
  rwa [hWay.eq_of_key hChecked hNames hPath hKey] at hd

/-- Where no name of a join or of a decision can be mistaken, control paths to a task with different
traces have different keys, and the dependencies of the task are their traces, each once.  Only
control that comes from the start without passing a decision leaves none. -/
theorem every_trace_kept {source : String} {w : Workflow} {options : TaskOptions} {g : TaskGraph}
    (hRead : (Workflow.read source).result = .ok w) (hNames : w.SeparableNames)
    (hGraph : (TaskGraph.ofWorkflow w options).result = .ok g) {task : Task}
    (hTask : task ∈ g.tasks) :
    (∀ origin crossings origin' crossings', w.ControlPath origin crossings task.source →
      w.ControlPath origin' crossings' task.source →
      Crossing.trace origin crossings ≠ Crossing.trace origin' crossings' →
      (Crossing.trace origin crossings).key ≠ (Crossing.trace origin' crossings').key) ∧
    (∀ d, d ∈ task.dependencies ↔ ∃ origin crossings,
      w.ControlPath origin crossings task.source ∧ Crossing.trace origin crossings = d ∧
        (origin ≠ .start ∨
          ∃ decision caseIndex guard, Crossing.branch decision caseIndex guard ∈ crossings)) ∧
    task.dependencies.Nodup := by
  have hChecked := Workflow.checked_of_read hRead
  have hTransformed := Transformed.of_ofWorkflow hChecked hGraph
  have hSound := hTransformed.sound task hTask
  refine ⟨?_, fun d => ⟨?_, ?_⟩, hSound.keys.of_map _⟩
  · intro origin crossings origin' crossings' hPath hPath' hDiffer hKey
    exact hDiffer (hPath.eq_of_key hChecked hNames hPath' hKey)
  · intro hd
    obtain ⟨hTrace, origin, crossings, hPath, rfl⟩ := hSound.arrives d hd
    exact ⟨origin, crossings, hPath, rfl, Crossing.traced_of_isBare hTrace⟩
  · rintro ⟨origin, crossings, hPath, rfl, hTraced⟩
    exact hTransformed.trace_mem hChecked hNames hTask hPath (Crossing.isBare_trace hTraced)

namespace MarkedNames

/-- The units of a document whose decision is named with a bar, an arrow and a hash and whose join
is named with a slash and a hash. -/
def units : List Char :=
  ["<w name='w'>",
    "<start to='f'/>",
    "<fork name='f'><path start='a'/><path start='d|&gt;#0'/></fork>",
    "<action name='a'><x/><ok to='j/#'/><error to='e'/></action>",
    "<decision name='d|&gt;#0'>",
    "<switch><case to='j/#'>true</case><default to='j/#'/></switch>",
    "</decision>",
    "<join name='j/#' to='b'/>",
    "<action name='b'><x/><ok to='e'/><error to='e'/></action>",
    "<end name='e'/>",
    "</w>"].flatMap String.toList

/-- The document with these units. -/
def source : String :=
  String.ofList units

/-- The workflow of the document. -/
def workflow : Workflow where
  name := "w"
  nodes :=
    [.start "f", .fork ⟨"f", ["a", "d|>#0"], none⟩,
      .action { name := "a", actionType := "x", ok := "j/#", error := "e" },
      .decision ⟨"d|>#0", [⟨"true", "j/#"⟩], "j/#"⟩, .join "j/#" "b",
      .action { name := "b", actionType := "x", ok := "e", error := "e" }, .finish "e"]
  closingJoins := [("f", "j/#")]
  defaults := .empty

/-- The task behind the join, to which control comes in three ways. -/
def behind : Task where
  id := "b"
  source := "b"
  body := .action "x" {}
  dependencies :=
    [⟨some "a", .success, [], some "j/#"⟩,
      ⟨none, .success, [⟨"d|>#0", some 0, some "true", none⟩], some "j/#"⟩,
      ⟨none, .success, [⟨"d|>#0", none, none, none⟩], some "j/#"⟩]

/-- The tasks of the workflow and the selection at its decision. -/
def graph : TaskGraph where
  workflow := "w"
  tasks := [{ id := "a", source := "a", body := .action "x" {} }, behind]
  decisions := [⟨"d|>#0", [⟨"true", "j/#", some "true"⟩], "j/#", "j/#", some 0⟩]

theorem read_source : (Workflow.read source).result = .ok workflow :=
  Workflow.read_ofList (by decide +kernel)

theorem ofWorkflow_workflow : (TaskGraph.ofWorkflow workflow {}).result = .ok graph := by
  decide +kernel

end MarkedNames

theorem every_trace_kept_marked :
    (Workflow.read MarkedNames.source).result = .ok MarkedNames.workflow ∧
    MarkedNames.workflow.SeparableNames ∧
    (TaskGraph.ofWorkflow MarkedNames.workflow {}).result = .ok MarkedNames.graph ∧
    MarkedNames.behind ∈ MarkedNames.graph.tasks ∧
    ∀ d, d ∈ MarkedNames.behind.dependencies ↔ ∃ origin crossings,
      MarkedNames.workflow.ControlPath origin crossings "b" ∧
        Crossing.trace origin crossings = d ∧ (origin ≠ .start ∨
          ∃ decision caseIndex guard, Crossing.branch decision caseIndex guard ∈ crossings) := by
  have hNames : MarkedNames.workflow.SeparableNames := by decide
  have hTask : MarkedNames.behind ∈ MarkedNames.graph.tasks :=
    List.mem_cons_of_mem _ (List.mem_singleton.mpr rfl)
  exact ⟨MarkedNames.read_source, hNames, MarkedNames.ofWorkflow_workflow, hTask,
    (every_trace_kept MarkedNames.read_source hNames MarkedNames.ofWorkflow_workflow hTask).2.1⟩

namespace SlashedDecision

/-- The units of a document in which a fork leads to two decisions and one of them to a third.  The
name of the second spells the first, its case and the third. -/
def units : List Char :=
  ["<w name='w'>",
    "<start to='f'/>",
    "<fork name='f'><path start='d'/><path start='d#0/&gt;e'/></fork>",
    "<decision name='d'>",
    "<switch><case to='e'>false</case><default to='j'/></switch>",
    "</decision>",
    "<decision name='e'>",
    "<switch><case to='b'>true</case><default to='j'/></switch>",
    "</decision>",
    "<decision name='d#0/&gt;e'>",
    "<switch><case to='b'>true</case><default to='j'/></switch>",
    "</decision>",
    "<action name='b'><x/><ok to='j'/><error to='z'/></action>",
    "<join name='j' to='z'/>",
    "<end name='z'/>",
    "</w>"].flatMap String.toList

/-- The document with these units. -/
def source : String :=
  String.ofList units

/-- The workflow of the document. -/
def workflow : Workflow where
  name := "w"
  nodes :=
    [.start "f", .fork ⟨"f", ["d", "d#0/>e"], none⟩, .decision ⟨"d", [⟨"false", "e"⟩], "j"⟩,
      .decision ⟨"e", [⟨"true", "b"⟩], "j"⟩, .decision ⟨"d#0/>e", [⟨"true", "b"⟩], "j"⟩,
      .action { name := "b", actionType := "x", ok := "j", error := "z" }, .join "j" "z",
      .finish "z"]
  closingJoins := [("f", "j")]
  defaults := .empty

/-- What the way through the first and the third decision crosses. -/
def longer : List Crossing :=
  [.plain, .plain, .branch "d" (some 0) (some "false"), .branch "e" (some 0) (some "true")]

/-- What the way through the second decision crosses. -/
def shorter : List Crossing :=
  [.plain, .plain, .branch "d#0/>e" (some 0) (some "true")]

/-- The task of the action, which has kept the longer way only. -/
def task : Task where
  id := "b"
  source := "b"
  body := .action "x" {}
  dependencies := [Crossing.trace .start longer]

/-- The tasks of the workflow and the selections at its decisions: the longer way is not taken. -/
def graph : TaskGraph where
  workflow := "w"
  tasks := [task]
  decisions :=
    [⟨"d", [⟨"false", "e", some "false"⟩], "j", "j", none⟩,
      ⟨"e", [⟨"true", "b", some "true"⟩], "j", "b", some 0⟩,
      ⟨"d#0/>e", [⟨"true", "b", some "true"⟩], "j", "b", some 0⟩]

theorem read_source : (Workflow.read source).result = .ok workflow :=
  Workflow.read_ofList (by decide +kernel)

theorem ofWorkflow_workflow : (TaskGraph.ofWorkflow workflow {}).result = .ok graph := by
  decide +kernel

theorem controlPath_fork : workflow.ControlPath .start [.plain] "f" :=
  .cross .start (.start rfl)

theorem controlPath_longer : workflow.ControlPath .start longer "b" := by
  have hFirst : workflow.Crosses "f" .plain "d" := .fork rfl List.mem_cons_self
  have hCase : workflow.Crosses "d" (.branch "d" (some 0) (some "false")) "e" :=
    .case (c := ⟨"false", "e"⟩) rfl rfl
  have hThird : workflow.Crosses "e" (.branch "e" (some 0) (some "true")) "b" :=
    .case (c := ⟨"true", "b"⟩) rfl rfl
  exact ((controlPath_fork.cross hFirst).cross hCase).cross hThird

theorem controlPath_shorter : workflow.ControlPath .start shorter "b" := by
  have hSecond : workflow.Crosses "f" .plain "d#0/>e" :=
    .fork rfl (List.mem_cons_of_mem _ List.mem_cons_self)
  have hCase : workflow.Crosses "d#0/>e" (.branch "d#0/>e" (some 0) (some "true")) "b" :=
    .case (c := ⟨"true", "b"⟩) rfl rfl
  exact (controlPath_fork.cross hSecond).cross hCase

end SlashedDecision

/-- Two control paths to one task have different traces with the same key, and the task has lost the
trace of the one that the configuration selects. -/
theorem slashed_decision_loses_trace :
    (Workflow.read SlashedDecision.source).result = .ok SlashedDecision.workflow ∧
    (TaskGraph.ofWorkflow SlashedDecision.workflow {}).result = .ok SlashedDecision.graph ∧
    SlashedDecision.task ∈ SlashedDecision.graph.tasks ∧
    SlashedDecision.workflow.ControlPath .start SlashedDecision.longer "b" ∧
    SlashedDecision.workflow.ControlPath .start SlashedDecision.shorter "b" ∧
    Crossing.trace .start SlashedDecision.longer ≠ Crossing.trace .start SlashedDecision.shorter ∧
    (Crossing.trace .start SlashedDecision.longer).key =
      (Crossing.trace .start SlashedDecision.shorter).key ∧
    Crossing.trace .start SlashedDecision.shorter ∉ SlashedDecision.task.dependencies :=
  ⟨SlashedDecision.read_source, SlashedDecision.ofWorkflow_workflow, List.mem_cons_self,
    SlashedDecision.controlPath_longer, SlashedDecision.controlPath_shorter, by decide, by decide,
    by decide⟩

end WorkflowDag
