import WorkflowDag.Proofs.DependencyPaths
import WorkflowDag.Proofs.ForkPairing
import WorkflowDag.Proofs.WalkCalls

/-!
# No dependency spans a fork and its join

Forks and joins make no tasks, so a dependency that leads into a fork goes on to the tasks on its
paths.  It does not go on to what stands behind the join: no path of a fork starts at a join, so
what enters a fork meets a task on each path before any join (`leads_closing_of_path`), and that
task leads to the join.  Were the task behind the join as well, it would lie on a cycle.

Main statement: `no_dependency_spans_block`.
-/

namespace WorkflowDag

/-- Where an outcome of an action leads. -/
def Action.next (a : Action) : Outcome → String
  | .success => a.ok
  | .failure => a.error

/-- The dependency comes from the task of the node.  A node that is never reached has no task. -/
def TaskGraph.ComesFrom (g : TaskGraph) (d : Dependency) (name : String) : Prop :=
  ∃ task ∈ g.tasks, task.source = name ∧ d.origin = some task.id

namespace Workflow

/-- The node is a join that leads to the target. -/
def ThroughJoin (w : Workflow) (name target : String) : Prop :=
  ∃ joinName, find? w.nodes name = some (.join joinName target)

/-- The node is a fork or a join that leads to the target. -/
def ThroughBlock (w : Workflow) (name target : String) : Prop :=
  (∃ f, find? w.nodes name = some (.fork f) ∧ target ∈ f.paths) ∨ w.ThroughJoin name target

/-- A transition that a control path crosses without passing a branch. -/
def Unbranched (w : Workflow) (name target : String) : Prop :=
  ∃ crossing, Crosses w name crossing target ∧
    ∀ decision caseIndex guard, crossing ≠ .branch decision caseIndex guard

section

variable {w : Workflow} {name target : String}

theorem ThroughJoin.leads (hThrough : w.ThroughJoin name target) : Leads w.nodes name target := by
  obtain ⟨joinName, hFind⟩ := hThrough
  exact (Crosses.join hFind).leads

theorem ThroughBlock.leads (hThrough : w.ThroughBlock name target) :
    Leads w.nodes name target := by
  rcases hThrough with ⟨f, hFind, hPath⟩ | hJoin
  · exact leads_path hFind hPath
  · exact hJoin.leads

/-- A control path without branches leads from where its outcome goes to its end. -/
theorem ControlPath.unbranched {a : Action} {outcome : Outcome} {crossings : List Crossing}
    (hFind : find? w.nodes name = some (.action a))
    (hPath : w.ControlPath (.outcome name outcome) crossings target)
    (hNone : Crossing.branches none crossings = []) :
    Relation.ReflTransGen w.Unbranched (a.next outcome) target := by
  generalize hOrigin : Origin.outcome name outcome = origin at hPath
  induction hPath with
  | start => cases hOrigin
  | ok hReachable hFind' =>
      cases hOrigin
      cases hFind.symm.trans hFind'
      exact .refl
  | error hReachable hFind' =>
      cases hOrigin
      cases hFind.symm.trans hFind'
      exact .refl
  | @cross origin crossings crossing before after hBefore hCross ih =>
      rw [Crossing.branches_concat, List.append_eq_nil_iff] at hNone
      refine (ih hNone.1 hOrigin).tail ⟨crossing, hCross, ?_⟩
      rintro decision caseIndex guard rfl
      exact absurd hNone.2 (List.cons_ne_nil _ _)

/-- The outcomes that control paths begin with are those of actions that can be reached. -/
theorem ControlPath.ownsTask {outcome : Outcome} {crossings : List Crossing}
    (hPath : w.ControlPath (.outcome name outcome) crossings target) : w.OwnsTask name := by
  generalize hOrigin : Origin.outcome name outcome = origin at hPath
  induction hPath with
  | start => cases hOrigin
  | ok hReachable hFind =>
      cases hOrigin
      exact ⟨hReachable, _, hFind, Or.inl rfl⟩
  | error hReachable hFind =>
      cases hOrigin
      exact ⟨hReachable, _, hFind, Or.inl rfl⟩
  | cross _ _ ih => exact ih hOrigin

/-- A node with a task is an action or a kill. -/
theorem OwnsTask.kind_eq (hOwns : w.OwnsTask name) {node : Node}
    (hFind : find? w.nodes name = some node) : node.kind = .action ∨ node.kind = .kill := by
  obtain ⟨-, owner, hOwner, hKind⟩ := hOwns
  cases hFind.symm.trans hOwner
  exact hKind

/-- Joins do not branch: what goes on from the first of them comes to where they lead. -/
theorem unbranched_of_throughJoins {fork : String}
    (hJoins : Relation.ReflTransGen w.ThroughJoin name fork)
    (hTarget : w.OwnsTask target)
    (hSteps : Relation.ReflTransGen w.Unbranched name target) :
    Relation.ReflTransGen w.Unbranched fork target := by
  induction hJoins using Relation.ReflTransGen.head_induction_on with
  | refl => exact hSteps
  | @head name next hJoin _ ih =>
      obtain ⟨joinName, hFind⟩ := hJoin
      rcases Relation.ReflTransGen.cases_head hSteps with
        rfl | ⟨after, ⟨crossing, hCross, -⟩, hRest⟩
      · simpa [Node.kind] using hTarget.kind_eq hFind
      · obtain ⟨-, rfl⟩ := hCross.inversion hFind
        exact ih hRest

/-- A step on the way to the joins of a fork follows transitions. -/
theorem Follows.transGen (hChecked : w.Checked)
    (hFollows : Follows w.nodes (closingOf w.closingJoins) name target) :
    Relation.TransGen (Leads w.nodes) name target := by
  cases hFollows with
  | @fork _ _ f hFind hJoin =>
      obtain ⟨join, joinName, behind, hClosing, hFindJoin⟩ := hChecked.exists_join hFind
      rw [closingOf, hClosing, Option.getD_some] at hJoin
      exact hChecked.nested.leads_behind hClosing hJoin
  | other hFind _ _ hTarget => exact .single (leads_of_mem_successTargets hFind hTarget)

theorem leads_of_follows (hChecked : w.Checked)
    (hFollows : Relation.ReflTransGen (Follows w.nodes (closingOf w.closingJoins)) name target) :
    Relation.ReflTransGen (Leads w.nodes) name target := by
  induction hFollows with
  | refl => exact .refl
  | tail _ hLast ih => exact ih.trans (hLast.transGen hChecked).to_reflTransGen

end

section

variable {source : String} {w : Workflow}

/-- Whatever the paths of a fork lead to without passing a branch leads to the join of the fork. -/
theorem leads_closing_of_path (hRead : (read source).result = .ok w) {path name : String}
    (hSteps : Relation.ReflTransGen w.Unbranched path name) :
    ∀ {f : Fork}, find? w.nodes f.name = some (.fork f) → Reachable w.nodes f.name →
      path ∈ f.paths →
      Relation.ReflTransGen (Leads w.nodes) name (closingOf w.closingJoins f.name) := by
  have hChecked := checked_of_read hRead
  -- The steps pass forks only, each of them on a path of the one before.
  induction hSteps using Relation.ReflTransGen.head_induction_on with
  | refl =>
      intro f hFind hReachable hPath
      have hMeets := ((closesReachable_of_read hRead f hFind hReachable).meets _ hPath _).mpr rfl
      exact leads_of_follows hChecked hMeets.1
  | @head path next hStep _ ih =>
      intro f hFind hReachable hPath
      have hCloses := closesReachable_of_read hRead f hFind hReachable
      have hOnto := hReachable.step (leads_path hFind hPath)
      obtain ⟨crossing, hCross, hPlain⟩ := hStep
      cases hCross with
      | start hStart =>
          obtain rfl : Node.startName = path := name_of_find? hStart
          exact absurd (.tail' hReachable (leads_path hFind hPath))
            ((walkable_of_read hRead).not_cycle (Reachable.start w.nodes))
      | @fork _ inner hInner hNext =>
          obtain rfl : inner.name = path := name_of_find? hInner
          have hJoin := ih hInner hOnto hNext
          have hMeets := (hCloses.meets _ hPath _).mpr rfl
          rcases Relation.ReflTransGen.cases_head hMeets.1 with hSame | ⟨behind, hFirst, hRest⟩
          · have hNoJoin := hCloses.paths _ hPath
            rw [hSame, hCloses.join] at hNoJoin
            cases hNoJoin
          · cases hFirst with
            | fork hInner' hFindJoin =>
                have hBehind : Leads w.nodes (closingOf w.closingJoins inner.name) behind :=
                  (Crosses.join hFindJoin).leads
                exact (hJoin.tail hBehind).trans (leads_of_follows hChecked hRest)
            | other hInner' _ hFork _ =>
                cases hInner.symm.trans hInner'
                exact absurd rfl hFork
      | join hJoin =>
          have hNoJoin := hCloses.paths _ hPath
          rw [isJoin_iff.mpr ⟨_, _, hJoin⟩] at hNoJoin
          cases hNoJoin
      | case _ _ => exact absurd rfl (hPlain _ _ _)
      | fallback _ => exact absurd rfl (hPlain _ _ _)

end

end Workflow

/-- An outcome of an action that leads into a fork, directly or through joins, leaves no dependency
without branches in a task that the join of the fork leads to through forks and joins. -/
theorem no_dependency_spans_block {source : String} {w : Workflow} {options : TaskOptions}
    {g : TaskGraph} (hRead : (Workflow.read source).result = .ok w)
    (hGraph : (TaskGraph.ofWorkflow w options).result = .ok g)
    {fork join joinName behind : String} {f : Fork} {a : Action} {outcome : Outcome} {task : Task}
    (hFork : Workflow.find? w.nodes fork = some (.fork f))
    (hReachable : Workflow.Reachable w.nodes fork)
    (hClosing : Workflow.closing? w.closingJoins fork = some join)
    (hJoin : Workflow.find? w.nodes join = some (.join joinName behind))
    (hAction : Workflow.find? w.nodes a.name = some (.action a))
    (hInto : Relation.ReflTransGen w.ThroughJoin (a.next outcome) fork)
    (hTask : task ∈ g.tasks)
    (hBehind : Relation.ReflTransGen w.ThroughBlock behind task.source) :
    ∀ d ∈ task.dependencies, g.ComesFrom d a.name → d.outcome = outcome → d.branches ≠ [] := by
  rintro d hd ⟨first, hFirst, hSource, hOrigin⟩ hOutcome hNone
  have hTransformed := Transformed.of_ofWorkflow (Workflow.checked_of_read hRead) hGraph
  have hOwns := hTransformed.ownsTask hTask
  obtain ⟨-, origin, crossings, hPath, rfl⟩ := (hTransformed.sound task hTask).arrives d hd
  cases origin with
  | start => cases hOrigin
  | outcome name result =>
      -- The dependency is the trace of a path that begins with this outcome of the action.
      obtain rfl : result = outcome := hOutcome
      have hId : Task.idOf name = Task.idOf first.source := by
        rw [← (hTransformed.sound first hFirst).id]
        exact Option.some.inj hOrigin
      have hName : name = a.name :=
        (hTransformed.eq_of_idOf hPath.ownsTask (hTransformed.ownsTask hFirst) hId).trans hSource
      subst hName
      have hOn := Workflow.unbranched_of_throughJoins hInto hOwns (hPath.unbranched hAction hNone)
      rcases Relation.ReflTransGen.cases_head hOn with hSame | ⟨path, ⟨crossing, hCross, -⟩, hRest⟩
      · subst hSame
        simpa [Node.kind] using hOwns.kind_eq hFork
      · obtain ⟨-, hPaths⟩ := hCross.inversion hFork
        obtain rfl : f.name = fork := Workflow.name_of_find? hFork
        have hLeads := Workflow.leads_closing_of_path hRead hRest hFork hReachable hPaths
        rw [Workflow.closingOf, hClosing, Option.getD_some] at hLeads
        have hOnward : Relation.TransGen (Workflow.Leads w.nodes) join task.source :=
          .head' (Workflow.Crosses.join hJoin).leads
            (Relation.ReflTransGen.mono (fun _ _ => Workflow.ThroughBlock.leads) _ _ hBehind)
        exact (Workflow.walkable_of_read hRead).not_cycle hOwns.1 (.trans_right hLeads hOnward)

namespace ChainedBlocks

/-- The units of a document with two blocks, the join of the first leading to the fork of the
second, and a kill behind both. -/
def units : List Char :=
  ["<w name='w'>",
    "<start to='e'/>",
    "<fork name='e'><path start='a'/><path start='b'/></fork>",
    "<action name='a'><x/><ok to='i'/><error to='k'/></action>",
    "<action name='b'><x/><ok to='i'/><error to='k'/></action>",
    "<join name='i' to='f'/>",
    "<fork name='f'><path start='c'/><path start='d'/></fork>",
    "<action name='c'><x/><ok to='j'/><error to='k'/></action>",
    "<action name='d'><x/><ok to='j'/><error to='k'/></action>",
    "<join name='j' to='k'/>",
    "<kill name='k'/>",
    "</w>"].flatMap String.toList

/-- The document with these units. -/
def source : String :=
  String.ofList units

/-- An action that leads to the kill when it fails. -/
def action (name ok : String) : Action :=
  { name, actionType := "x", ok, error := "k" }

/-- The workflow of the document. -/
def workflow : Workflow where
  name := "w"
  nodes :=
    [.start "e", .fork ⟨"e", ["a", "b"], none⟩, .action (action "a" "i"), .action (action "b" "i"),
      .join "i" "f", .fork ⟨"f", ["c", "d"], none⟩, .action (action "c" "j"),
      .action (action "d" "j"), .join "j" "k", .kill "k" ""]
  closingJoins := [("e", "i"), ("f", "j")]
  defaults := .empty

/-- The task of an action in the first block. -/
def first (name : String) : Task where
  id := name
  source := name
  body := .action "x" {}

/-- The task of an action in the second block. -/
def second (name : String) : Task where
  id := name
  source := name
  body := .action "x" {}
  dependencies := [⟨some "a", .success, [], some "i"⟩, ⟨some "b", .success, [], some "i"⟩]

/-- The task of the kill: the failures of all actions, and the successes of the second block. -/
def kill : Task where
  id := "k"
  source := "k"
  body := .kill ""
  dependencies :=
    [⟨some "a", .failure, [], none⟩, ⟨some "b", .failure, [], none⟩,
      ⟨some "c", .failure, [], none⟩, ⟨some "d", .failure, [], none⟩,
      ⟨some "c", .success, [], some "j"⟩, ⟨some "d", .success, [], some "j"⟩]

/-- The tasks of the workflow. -/
def graph : TaskGraph where
  workflow := "w"
  tasks := [first "a", kill, first "b", second "c", second "d"]

theorem read_source : (Workflow.read source).result = .ok workflow :=
  Workflow.read_ofList (by decide +kernel)

theorem ofWorkflow_workflow : (TaskGraph.ofWorkflow workflow {}).result = .ok graph := by
  decide +kernel

theorem reachable_fork : Workflow.Reachable workflow.nodes "f" := by
  have hFirst : Workflow.Leads workflow.nodes Node.startName "e" := by unfold Workflow.Leads; decide
  have hPath : Workflow.Leads workflow.nodes "e" "a" := by unfold Workflow.Leads; decide
  have hOk : Workflow.Leads workflow.nodes "a" "i" := by unfold Workflow.Leads; decide
  have hNext : Workflow.Leads workflow.nodes "i" "f" := by unfold Workflow.Leads; decide
  exact ((((Workflow.Reachable.start _).step hFirst).step hPath).step hOk).step hNext

end ChainedBlocks

/-- The success of an action in the first block leads into the second one, through a join, and
leaves no dependency in the kill behind it. -/
theorem no_dependency_spans_block_chained :
    (Workflow.read ChainedBlocks.source).result = .ok ChainedBlocks.workflow ∧
    (TaskGraph.ofWorkflow ChainedBlocks.workflow {}).result = .ok ChainedBlocks.graph ∧
    ChainedBlocks.kill ∈ ChainedBlocks.graph.tasks ∧
    ∀ d ∈ ChainedBlocks.kill.dependencies, ChainedBlocks.graph.ComesFrom d "a" →
      d.outcome = .success → d.branches ≠ [] := by
  have hKill : ChainedBlocks.kill ∈ ChainedBlocks.graph.tasks := by decide
  have hInto : Relation.ReflTransGen ChainedBlocks.workflow.ThroughJoin
      ((ChainedBlocks.action "a" "i").next .success) "f" := .single ⟨"i", rfl⟩
  refine ⟨ChainedBlocks.read_source, ChainedBlocks.ofWorkflow_workflow, hKill, ?_⟩
  exact no_dependency_spans_block ChainedBlocks.read_source ChainedBlocks.ofWorkflow_workflow rfl
    ChainedBlocks.reachable_fork rfl rfl rfl hInto hKill .refl

end WorkflowDag
