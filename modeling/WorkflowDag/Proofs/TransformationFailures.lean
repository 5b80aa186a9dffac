import WorkflowDag.Proofs.DependencyPaths
import WorkflowDag.Proofs.EvaluationFaults
import WorkflowDag.Proofs.WalkCalls

/-!
# How making tasks can fail

`Refused` lists the errors of making the tasks of a workflow that has been read, each with what is
wrong with the node that it names.  A walk that fails has called for a visit that fails on its own
account, and a visit fails only for the reasons listed (`Fails.refused`).

`walk_steps_succ` is the induction on the steps of a walk: with as many left as a path through all
nodes could take, one more changes nothing.

Main statement: `transformation_failures`.
-/

namespace WorkflowDag

/-- An error that making tasks may end with. -/
inductive Refused (w : Workflow) (options : TaskOptions) : Error → Prop
  /-- Control comes to a join while no fork that it closes is being walked. -/
  | outsideFork {name : String} (hReachable : Workflow.Reachable w.nodes name)
      (hJoin : Workflow.isJoin w.nodes name = true) : Refused w options (.task name .outsideFork)
  /-- Two nodes have the same task id. -/
  | idTaken {name owner : String} (hName : w.OwnsTask name) (hOwner : w.OwnsTask owner)
      (hDiffer : owner ≠ name) (hId : Task.idOf owner = Task.idOf name) :
      Refused w options (.task name (.idTaken (Task.idOf name) owner))
  | guardFailed {name : String} {d : Decision} {cause : EvalError}
      (hReachable : Workflow.Reachable w.nodes name)
      (hFind : Workflow.find? w.nodes name = some (.decision d))
      (hGuards : chooseGuard (Walk.scopeOf w options) options.strictDecisions
        (d.cases.map GuardedCase.guard) = .error cause) :
      Refused w options (.task name (.guardFailed cause))
  | severalGuards {name : String} {d : Decision} {choice : GuardChoice}
      (hReachable : Workflow.Reachable w.nodes name)
      (hFind : Workflow.find? w.nodes name = some (.decision d))
      (hStrict : options.strictDecisions = true)
      (hGuards : chooseGuard (Walk.scopeOf w options) true (d.cases.map GuardedCase.guard) =
        .ok choice)
      (hSeveral : 1 < (choice.values.filter holds).length) :
      Refused w options (.task name (.severalGuards (choice.values.filter holds).length))
  /-- A text of a node has no value.  Where that is the misuse of a built-in member, an expression
  in the text misuses it. -/
  | text {name text : String} {node : Node} {cause : EvalError} (hOwns : w.OwnsTask name)
      (hFind : Workflow.find? w.nodes name = some node) (hText : text ∈ node.texts)
      (hFails : Template.interpolate (Walk.scopeOf w options) text = .error cause)
      (hMisuse : ∀ misuse, cause = .misuse misuse →
        Template.Misused (Walk.scopeOf w options) text misuse) :
      Refused w options (.evaluation cause (some name))

namespace Walk

/-- Where a walk stands: at a node that its path leads to, in a state that comes from the workflow,
with as many steps left as a path through all nodes could take. -/
structure Standing (w : Workflow) (options : TaskOptions) (steps : Nat) (path : List String)
    (visit : Visit) (s : State) : Prop where
  enclosed : Workflow.Enclosed w.nodes steps path visit.1
  found : ∃ node, Workflow.find? w.nodes visit.1 = some node
  visit : VisitSound w visit
  sound : Sound w options (scopeOf w options) s

section

variable {w : Workflow} {options : TaskOptions} {steps : Nat} {path : List String} {name : String}
  {incoming : List Dependency} {s : State} {e : Error}

theorem Standing.onPath (hStanding : Standing w options steps path (name, incoming) s) :
    OnPath w steps path name :=
  ⟨hStanding.enclosed, hStanding.found, hStanding.visit.1⟩

theorem ownsTask_of_ofNode? {node : Node} {owner : Owner}
    (hReachable : Workflow.Reachable w.nodes name)
    (hFind : Workflow.find? w.nodes name = some node) (hOwner : Owner.ofNode? node = some owner) :
    w.OwnsTask name := by
  refine ⟨hReachable, node, hFind, ?_⟩
  cases node <;> simp_all [Owner.ofNode?, Node.kind]

/-- The body of a task cannot be made when a text of its node has no value. -/
theorem refused_of_bodyOf {node : Node} {owner : Owner}
    (hReachable : Workflow.Reachable w.nodes owner.name)
    (hFind : Workflow.find? w.nodes owner.name = some node)
    (hOwner : Owner.ofNode? node = some owner)
    (hBody : bodyOf (scopeOf w options) owner = .error e) : Refused w options e := by
  have hOwns := ownsTask_of_ofNode? hReachable hFind hOwner
  have hText : ∃ cause, e = .evaluation cause (some owner.name) ∧
      ∃ text ∈ node.texts, Template.interpolate (scopeOf w options) text = .error cause := by
    cases node with
    | action a =>
        cases hOwner
        obtain ⟨cause, hCause, rfl⟩ :=
          mapError_eq_error_iff.mp (map_eq_error_iff.mp hBody)
        exact ⟨cause, rfl, exists_text_of_resolveDetails hCause⟩
    | kill killName message =>
        cases hOwner
        obtain ⟨cause, hCause, rfl⟩ :=
          mapError_eq_error_iff.mp (map_eq_error_iff.mp hBody)
        exact ⟨cause, rfl, message, List.mem_singleton.mpr rfl, hCause⟩
    | start target => cases hOwner
    | decision d => cases hOwner
    | fork f => cases hOwner
    | join joinName target => cases hOwner
    | finish endName => cases hOwner
  obtain ⟨cause, rfl, text, hMem, hFails⟩ := hText
  refine .text hOwns hFind hMem hFails ?_
  rintro misuse rfl
  exact Template.misused_of_interpolate hFails

theorem refused_of_withTask {node : Node} {owner : Owner}
    (hReachable : Workflow.Reachable w.nodes owner.name)
    (hFind : Workflow.find? w.nodes owner.name = some node)
    (hOwner : Owner.ofNode? node = some owner) (hSound : Sound w options (scopeOf w options) s)
    (hTask : s.withTask (scopeOf w options) owner = .error e) : Refused w options e := by
  unfold State.withTask at hTask
  simp only at hTask
  split at hTask
  next task hTaken =>
    split at hTask
    · cases hTask
    next hSource =>
      cases hTask
      -- The id is that of a task made before, whose node is another one.
      have hTaskSound := hSound.tasks task (List.mem_of_find?_eq_some hTaken)
      have hSame := List.find?_some hTaken
      have hId : task.id = Task.idOf owner.name := eq_of_beq hSame
      obtain ⟨node', owner', hFind', hOwner', -⟩ := hTaskSound.owned
      refine .idTaken (ownsTask_of_ofNode? hReachable hFind hOwner)
        (ownsTask_of_ofNode? hTaskSound.reachable hFind' hOwner') ?_ ?_
      · exact fun hEq => hSource (beq_iff_eq.mpr hEq)
      · rw [← hTaskSound.id, hId]
  next =>
    rcases bind_eq_error_iff.mp hTask with hBody | ⟨body, -, hTask⟩
    · exact refused_of_bodyOf hReachable hFind hOwner hBody
    · cases hTask

theorem refused_of_resolve {d : Decision} (hReachable : Workflow.Reachable w.nodes name)
    (hFind : Workflow.find? w.nodes name = some (.decision d))
    (hResolve : (s.resolve options (scopeOf w options) d).result = .error e) :
    Refused w options e := by
  have hName : d.name = name := Workflow.name_of_find? hFind
  unfold State.resolve at hResolve
  split at hResolve
  · cases hResolve
  rw [Traced.result_bind, Traced.result_ofExcept] at hResolve
  rcases bind_eq_error_iff.mp hResolve with hRecord | ⟨record, -, hResolve⟩
  · unfold resolveDecision at hRecord
    split at hRecord
    next cause hGuards =>
      cases hRecord
      rw [hName]
      exact .guardFailed hReachable hFind hGuards
    next choice hGuards =>
      simp only at hRecord
      split at hRecord
      next hSeveral =>
        cases hRecord
        rw [hSeveral.1] at hGuards
        rw [hName]
        exact .severalGuards hReachable hFind hSeveral.1 hGuards hSeveral.2
      next => cases hRecord
  · cases hResolve

/-- A visit that fails is refused for one of the reasons listed. -/
theorem Fails.refused {stage : Visit × State} (hFails : Fails w options (scopeOf w options) stage e)
    (hVisit : VisitSound w stage.1) (hSound : Sound w options (scopeOf w options) stage.2) :
    Refused w options e := by
  cases hFails with
  | task owner hFind hOwner hTask => exact refused_of_withTask hVisit.1 hFind hOwner hSound hTask
  | guards hFind hResolve => exact refused_of_resolve hVisit.1 hFind hResolve
  | join hFind _ => exact .outsideFork hVisit.1 (Workflow.isJoin_iff.mpr ⟨_, _, hFind⟩)

/-- A walk that fails is refused for one of the reasons listed. -/
theorem refused_of_walk (hWalkable : w.Walkable) (steps : Nat) :
    ∀ (path : List String) (name : String) (incoming : List Dependency) (s : State) (e : Error),
      Standing w options steps path (name, incoming) s →
      (walk w options (scopeOf w options) steps path name incoming s).result = .error e →
      Refused w options e := by
  intro path name incoming s e hStanding hWalk
  obtain ⟨stage, hStages, hFails⟩ :=
    exists_fails_of_walk hWalkable steps path name incoming s e hStanding.onPath hWalk
  obtain ⟨hVisit, hSound⟩ :=
    Calls.sound_all hWalkable.checked.nested hStages hStanding.visit hStanding.sound
  exact hFails.refused hVisit hSound

/-- More steps than a path through all nodes takes change nothing. -/
theorem walk_steps_succ (hWalkable : w.Walkable) (scope : Scope) (steps : Nat) :
    ∀ (path : List String) (name : String) (incoming : List Dependency) (s : State),
      OnPath w steps path name →
      walk w options scope (steps + 1) path name incoming s =
        walk w options scope steps path name incoming s := by
  induction steps with
  | zero =>
      intro path name incoming s hPath
      exact absurd rfl hPath.enclosed.levels_ne_zero
  | succ steps ih =>
      intro path name incoming s hPath
      obtain ⟨node, hFind⟩ := hPath.found
      have hFurther : ∀ target incoming' s',
          Relation.TransGen (Workflow.Leads w.nodes) name target →
          walk w options scope (steps + 1) (path ++ [name]) target incoming' s' =
            walk w options scope steps (path ++ [name]) target incoming' s' :=
        fun target incoming' s' hLeads => ih _ _ _ _ (hPath.next hWalkable hLeads)
      rw [walk, hFind]
      conv_rhs => rw [walk, hFind]
      cases node with
      | finish endName => rfl
      | kill killName message => rfl
      | join joinName target => rfl
      | start target =>
          have hCross : w.Crosses name .plain target := .start hFind
          exact bind_congr fun _ => hFurther target incoming s (.single hCross.leads)
      | action a =>
          refine bind_congr fun _ => bind_congr fun s1 => ?_
          dsimp only
          split
          · rfl
          · rw [hFurther a.ok _ _ (.single (Workflow.leads_ok hFind))]
            exact bind_congr fun s4 => hFurther a.error _ s4 (.single (Workflow.leads_error hFind))
      | decision d =>
          refine bind_congr fun _ => bind_congr fun s1 => ?_
          refine foldlM_congr_of_mem (fun between branch hBranch => ?_) s1
          obtain ⟨caseIndex, guard, -, hCross⟩ := crosses_of_mem_branchesOf hFind hBranch
          exact hFurther branch.2 _ between (.single hCross.leads)
      | fork f =>
          obtain ⟨join, joinName, behind, hClosing, hJoin⟩ := hWalkable.checked.exists_join hFind
          simp only [hClosing, hJoin]
          refine bind_congr fun _ => ?_
          rw [foldlM_congr_of_mem fun between path hPath =>
            hFurther path incoming between (.single (Workflow.leads_path hFind hPath))]
          exact bind_congr fun s2 =>
            hFurther behind _ _ (hWalkable.checked.nested.leads_behind hClosing hJoin)

theorem walk_steps_eq (hWalkable : w.Walkable) (scope : Scope) {steps : Nat}
    (hSteps : w.nodes.length < steps) (incoming : List Dependency) (s : State) :
    walk w options scope steps [] Node.startName incoming s =
      walk w options scope (w.nodes.length + 1) [] Node.startName incoming s := by
  obtain ⟨extra, rfl⟩ := Nat.exists_eq_add_of_lt hSteps
  induction extra with
  | zero => rfl
  | succ extra ih =>
      have hEnclosed : Workflow.Enclosed w.nodes (w.nodes.length + extra + 1) [] Node.startName :=
        ⟨List.nodup_nil, fun _ hOuter => absurd hOuter List.not_mem_nil,
          by simp only [List.length_nil]; omega⟩
      rw [← ih (by omega)]
      exact walk_steps_succ hWalkable scope _ _ _ _ _ ⟨hEnclosed, hWalkable.start, .start w.nodes⟩

end

end Walk

/-- Making the tasks of a workflow that has been read ends, whatever the options: the bound on the
steps of its walk never cuts it short.  It fails only for the reasons listed, never because of a
cycle, a missing node or a fork without a join, and each evaluation error names its node. -/
theorem transformation_failures {source : String} {w : Workflow} (options : TaskOptions)
    (hRead : (Workflow.read source).result = .ok w) :
    (∀ steps, w.nodes.length < steps → ∀ incoming s,
      Walk.walk w options (Walk.scopeOf w options) steps [] Node.startName incoming s =
        Walk.walk w options (Walk.scopeOf w options) (w.nodes.length + 1) [] Node.startName incoming
          s) ∧
    ∀ e, (TaskGraph.ofWorkflow w options).result = .error e →
      Refused w options e ∧ e.kind ≠ .cyclicGraph ∧
        (∀ node, e ≠ .task node .noClosingJoin ∧ e ≠ .task node .noStartNode ∧
          ∀ target, e ≠ .task node (.noTransition target)) ∧
        ∀ cause, e ≠ .evaluation cause none := by
  have hWalkable := Workflow.walkable_of_read hRead
  refine ⟨fun steps hSteps => Walk.walk_steps_eq hWalkable _ hSteps, ?_⟩
  intro e hGraph
  have hRefused : Refused w options e := by
    rw [TaskGraph.ofWorkflow, Traced.result_bind] at hGraph
    rcases bind_eq_error_iff.mp hGraph with hWalk | ⟨s, -, hGraph⟩
    · refine Walk.refused_of_walk hWalkable _ [] Node.startName _ {} e ⟨.outermost _ _,
        hWalkable.start, ⟨.start w.nodes, ?_⟩, .empty⟩ hWalk
      intro d hd
      rw [List.mem_singleton.mp hd]
      exact ⟨.start, [], .start, rfl⟩
    · cases hGraph
  refine ⟨hRefused, ?_⟩
  cases hRefused with
  | outsideFork _ _ => simp [Error.kind]
  | idTaken _ _ _ _ => simp [Error.kind]
  | guardFailed _ _ _ => simp [Error.kind]
  | severalGuards _ _ _ _ _ => simp [Error.kind]
  | @text name text node cause _ _ _ _ _ => cases cause <;> simp [Error.kind, EvalError.kind]

namespace TrimmedMember

/-- The units of a document with an action whose text passes a built-in member to a function. -/
def units : List Char :=
  ["<w name='w'>",
    "<start to='a'/>",
    "<action name='a'><x><y>$\x7btrim(toString)\x7d</y></x><ok to='e'/><error to='e'/></action>",
    "<end name='e'/>",
    "</w>"].flatMap String.toList

/-- The document with these units. -/
def source : String :=
  String.ofList units

/-- The workflow of the document. -/
def workflow : Workflow where
  name := "w"
  nodes :=
    [.start "a",
      .action
        { name := "a"
          actionType := "x"
          payload := [{ tag := "y", text := "$\x7btrim(toString)\x7d" }]
          ok := "e"
          error := "e" },
      .finish "e"]
  closingJoins := []
  defaults := .empty

theorem read_source : (Workflow.read source).result = .ok workflow :=
  Workflow.read_ofList (by decide +kernel)

theorem ofWorkflow_workflow : (TaskGraph.ofWorkflow workflow {}).result =
    .error (.evaluation (.misuse .trimmed) (some "a")) := by
  decide +kernel

end TrimmedMember

theorem transformation_failures_trimmed :
    (Workflow.read TrimmedMember.source).result = .ok TrimmedMember.workflow ∧
    (TaskGraph.ofWorkflow TrimmedMember.workflow {}).result =
      .error (.evaluation (.misuse .trimmed) (some "a")) ∧
    Refused TrimmedMember.workflow {} (.evaluation (.misuse .trimmed) (some "a")) :=
  ⟨TrimmedMember.read_source, TrimmedMember.ofWorkflow_workflow,
    ((transformation_failures {} TrimmedMember.read_source).2 _
      TrimmedMember.ofWorkflow_workflow).1⟩

end WorkflowDag
