import WorkflowDag.Proofs.CheckedWorkflow
import WorkflowDag.Task.Walk

/-!
# The steps of a walk

`Walked` says what a walk that succeeds has done, one rule for each kind of node: it takes a list of
visits, each a node with the dependencies that lead into it, from one state to the next.  The path
to a node and the bound on the number of steps only matter to walks that fail, so they are gone.
`walked_of_walk` ties the rules to the walk; every invariant is proved by induction on the rules.
-/

namespace WorkflowDag
namespace Walk

/-- A node that is walked on from, and the dependencies that lead into it. -/
abbrev Visit := String × List Dependency

/-- What owns the task of a node, for the nodes that have one. -/
def Owner.ofNode? : Node → Option Owner
  | .action a => some (.action a)
  | .kill name message => some (.kill name message)
  | _ => none

/-- The state once control has come to the owner of a task. -/
def State.receive (s : State) (scope : Scope) (owner : Owner) (incoming : List Dependency) :
    Except Error State :=
  (s.withTask scope owner).map fun s1 => s1.addDependencies (Task.idOf owner.name) incoming

/-- The visits that the outcomes of an action lead to. -/
def outcomeVisits (name : String) (a : Action) : List Visit :=
  [(a.ok, [⟨some (Task.idOf name), .success, [], none⟩]),
    (a.error, [⟨some (Task.idOf name), .failure, [], none⟩])]

/-- The visits that the branches of a decision lead to. -/
def branchVisits (d : Decision) (incoming : List Dependency) : List Visit :=
  (branchesOf d).map fun branch => (branch.2, incoming.map (passing branch.1))

/-- The visit behind a join, with what has been gathered there. -/
def joinVisit (join behind : String) (edges : List Dependency) : Visit :=
  (behind, edges.map fun d => { d with join := some join })

/-- The visits take a walk from the first state to the second. -/
inductive Walked (w : Workflow) (options : TaskOptions) (scope : Scope) :
    List Visit → State → State → Prop
  | nil (s : State) : Walked w options scope [] s s
  | cons {visit next : Visit} {rest : List Visit} {s s1 s2 : State}
      (hFirst : Walked w options scope [visit] s s1)
      (hRest : Walked w options scope (next :: rest) s1 s2) :
      Walked w options scope (visit :: next :: rest) s s2
  | finish {name endName : String} {incoming : List Dependency} {s : State}
      (hFind : Workflow.find? w.nodes name = some (.finish endName)) :
      Walked w options scope [(name, incoming)] s s
  | kill {name killName message : String} {incoming : List Dependency} {s s1 : State}
      (hFind : Workflow.find? w.nodes name = some (.kill killName message))
      (hReceive : s.receive scope (.kill killName message) incoming = .ok s1) :
      Walked w options scope [(name, incoming)] s s1
  | start {name target : String} {incoming : List Dependency} {s s1 : State}
      (hFind : Workflow.find? w.nodes name = some (.start target))
      (hNext : Walked w options scope [(target, incoming)] s s1) :
      Walked w options scope [(name, incoming)] s s1
  | again {name : String} {a : Action} {incoming : List Dependency} {s s1 : State}
      (hFind : Workflow.find? w.nodes name = some (.action a))
      (hReceive : s.receive scope (.action a) incoming = .ok s1)
      (hFollowed : name ∈ s1.followed) :
      Walked w options scope [(name, incoming)] s s1
  | action {name : String} {a : Action} {incoming : List Dependency} {s s1 s2 : State}
      (hFind : Workflow.find? w.nodes name = some (.action a))
      (hReceive : s.receive scope (.action a) incoming = .ok s1)
      (hOutcomes : Walked w options scope (outcomeVisits name a)
        { s1 with followed := name :: s1.followed } s2) :
      Walked w options scope [(name, incoming)] s s2
  | decision {name : String} {d : Decision} {incoming : List Dependency} {s s1 s2 : State}
      (hFind : Workflow.find? w.nodes name = some (.decision d))
      (hResolve : (s.resolve options scope d).result = .ok s1)
      (hBranches : Walked w options scope (branchVisits d incoming) s1 s2) :
      Walked w options scope [(name, incoming)] s s2
  | fork {name join joinName behind : String} {f : Fork} {incoming edges : List Dependency}
      {s s1 s2 s3 : State}
      (hFind : Workflow.find? w.nodes name = some (.fork f))
      (hClosing : Workflow.closing? w.closingJoins name = some join)
      (hJoin : Workflow.find? w.nodes join = some (.join joinName behind))
      (hPaths : Walked w options scope (f.paths.map fun path => (path, incoming))
        { s with gathered := (join, []) :: s.gathered } s1)
      (hRelease : s1.release join = (edges, s2))
      (hBehind : Walked w options scope [joinVisit join behind edges] s2 s3) :
      Walked w options scope [(name, incoming)] s s3
  | join {name joinName target : String} {incoming : List Dependency} {s : State}
      {gathered : List (String × List Dependency)}
      (hFind : Workflow.find? w.nodes name = some (.join joinName target))
      (hGather : gather name incoming s.gathered = some gathered) :
      Walked w options scope [(name, incoming)] s { s with gathered }

section

variable {w : Workflow} {options : TaskOptions} {scope : Scope}

/-- A visit followed by any number of others. -/
theorem Walked.visit_then {visit : Visit} {rest : List Visit} {s s1 s2 : State}
    (hFirst : Walked w options scope [visit] s s1) (hRest : Walked w options scope rest s1 s2) :
    Walked w options scope (visit :: rest) s s2 := by
  cases rest with
  | nil =>
      cases hRest
      exact hFirst
  | cons next rest => exact Walked.cons hFirst hRest

/-- A fold of walks makes the visits of its items in order. -/
theorem walked_of_foldlM {α : Type} {visitOf : α → Visit} {one : State → α → Traced State}
    (hOne : ∀ s item s1, (one s item).result = .ok s1 →
      Walked w options scope [visitOf item] s s1) :
    ∀ (items : List α) (s s1 : State), (items.foldlM one s).result = .ok s1 →
      Walked w options scope (items.map visitOf) s s1 := by
  intro items
  induction items with
  | nil =>
      intro s s1 hFold
      cases hFold
      exact Walked.nil s
  | cons item rest ih =>
      intro s s1 hFold
      rw [List.foldlM_cons, Traced.result_bind] at hFold
      obtain ⟨between, hItem, hFold⟩ := bind_eq_ok_iff.mp hFold
      exact Walked.visit_then (hOne s item between hItem) (ih between s1 hFold)

/-- A walk that succeeds has made its visit by the rules. -/
theorem walked_of_walk (steps : Nat) :
    ∀ (path : List String) (name : String) (incoming : List Dependency) (s s' : State),
      (walk w options scope steps path name incoming s).result = .ok s' →
      Walked w options scope [(name, incoming)] s s' := by
  -- The recursion is on the bound; the checks that only guard against cycles are dropped.
  induction steps with
  | zero =>
      intro path name incoming s s' hWalk
      cases hWalk
  | succ steps ih =>
      intro path name incoming s s' hWalk
      rw [walk] at hWalk
      cases hFind : Workflow.find? w.nodes name with
      | none =>
          rw [hFind] at hWalk
          cases hWalk
      | some node =>
          rw [hFind] at hWalk
          cases node with
          | finish endName =>
              cases hWalk
              exact Walked.finish hFind
          | kill killName message =>
              simp only [Traced.result_bind, Traced.result_ofExcept] at hWalk
              obtain ⟨s1, hTask, hWalk⟩ := bind_eq_ok_iff.mp hWalk
              cases hWalk
              exact Walked.kill hFind (map_eq_ok_iff.mpr ⟨s1, hTask, rfl⟩)
          | start target =>
              simp only [Traced.result_bind, Traced.result_ofExcept] at hWalk
              obtain ⟨-, -, hWalk⟩ := bind_eq_ok_iff.mp hWalk
              exact Walked.start hFind (ih _ _ _ _ _ hWalk)
          | action a =>
              simp only [Traced.result_bind, Traced.result_ofExcept] at hWalk
              obtain ⟨-, -, hWalk⟩ := bind_eq_ok_iff.mp hWalk
              obtain ⟨s1, hTask, hWalk⟩ := bind_eq_ok_iff.mp hWalk
              have hName : a.name = name := Workflow.name_of_find? hFind
              have hReceive : s.receive scope (.action a) incoming =
                  .ok (s1.addDependencies (Task.idOf name) incoming) :=
                map_eq_ok_iff.mpr ⟨s1, hTask, by rw [← hName]; rfl⟩
              split at hWalk
              next hFollowed =>
                cases hWalk
                exact Walked.again hFind hReceive (List.contains_iff_mem.mp hFollowed)
              next =>
                rw [Traced.result_bind] at hWalk
                obtain ⟨s2, hOk, hError⟩ := bind_eq_ok_iff.mp hWalk
                exact Walked.action hFind hReceive
                  (Walked.cons (ih _ _ _ _ _ hOk) (ih _ _ _ _ _ hError))
          | decision d =>
              simp only [Traced.result_bind, Traced.result_ofExcept] at hWalk
              obtain ⟨-, -, hWalk⟩ := bind_eq_ok_iff.mp hWalk
              obtain ⟨s1, hResolve, hWalk⟩ := bind_eq_ok_iff.mp hWalk
              refine Walked.decision hFind hResolve (walked_of_foldlM ?_ (branchesOf d) s1 s' hWalk)
              intro before branch after hBranch
              exact ih _ _ _ _ _ hBranch
          | fork f =>
              cases hClosing : Workflow.closing? w.closingJoins name with
              | none =>
                  rw [hClosing] at hWalk
                  cases hWalk
              | some join =>
                  rw [hClosing] at hWalk
                  simp only at hWalk
                  split at hWalk
                  next joinName behind hJoin =>
                    simp only [Traced.result_bind, Traced.result_ofExcept] at hWalk
                    obtain ⟨-, -, hWalk⟩ := bind_eq_ok_iff.mp hWalk
                    obtain ⟨s1, hPaths, hBehind⟩ := bind_eq_ok_iff.mp hWalk
                    refine Walked.fork hFind hClosing hJoin
                      (walked_of_foldlM ?_ f.paths _ s1 hPaths) rfl (ih _ _ _ _ _ hBehind)
                    intro before target after hPath
                    exact ih _ _ _ _ _ hPath
                  next => cases hWalk
          | join joinName target =>
              cases hGather : gather name incoming s.gathered with
              | none =>
                  simp only [hGather] at hWalk
                  cases hWalk
              | some gathered =>
                  simp only [hGather] at hWalk
                  cases hWalk
                  exact Walked.join hFind hGather

/-- A visit to a join needs a fork that is being walked. -/
theorem Walked.ne_join {name : String} {incoming : List Dependency} {s s1 : State}
    (hWalked : Walked w options scope [(name, incoming)] s s1) (hGathered : s.gathered = []) :
    ∀ joinName target, Workflow.find? w.nodes name ≠ some (.join joinName target) := by
  intro joinName target hJoin
  cases hWalked with
  | finish hFind => cases hJoin.symm.trans hFind
  | kill hFind _ => cases hJoin.symm.trans hFind
  | start hFind _ => cases hJoin.symm.trans hFind
  | again hFind _ _ => cases hJoin.symm.trans hFind
  | action hFind _ _ => cases hJoin.symm.trans hFind
  | decision hFind _ _ => cases hJoin.symm.trans hFind
  | fork hFind _ _ _ _ _ => cases hJoin.symm.trans hFind
  | join hFind hGather =>
      rw [hGathered] at hGather
      cases hGather

/-- A visit to the start goes on with what it leads to. -/
theorem Walked.next {name target : String} {incoming : List Dependency} {s s1 : State}
    (hWalked : Walked w options scope [(name, incoming)] s s1)
    (hStart : Workflow.find? w.nodes name = some (.start target)) :
    Walked w options scope [(target, incoming)] s s1 := by
  cases hWalked with
  | finish hFind => cases hStart.symm.trans hFind
  | kill hFind _ => cases hStart.symm.trans hFind
  | start hFind hNext =>
      cases hStart.symm.trans hFind
      exact hNext
  | again hFind _ _ => cases hStart.symm.trans hFind
  | action hFind _ _ => cases hStart.symm.trans hFind
  | decision hFind _ _ => cases hStart.symm.trans hFind
  | fork hFind _ _ _ _ _ => cases hStart.symm.trans hFind
  | join hFind _ => cases hStart.symm.trans hFind

end

/-- What the texts of a workflow are evaluated against: the defaults of its parameters, overridden
by the configuration that is given. -/
def scopeOf (w : Workflow) (options : TaskOptions) : Scope where
  definitions := w.defaults.merge options.configuration
  workflowName := some w.name
  unresolved := options.unresolved

/-- The walk that makes the tasks of a workflow, and the graph made of where it ends. -/
theorem exists_walked_of_ofWorkflow {w : Workflow} {options : TaskOptions} {g : TaskGraph}
    (hGraph : (TaskGraph.ofWorkflow w options).result = .ok g) :
    ∃ s, Walked w options (scopeOf w options)
        [(Node.startName, [⟨none, .success, [], none⟩])] {} s ∧
      g = ⟨w.name, s.tasks, s.decisions, w.defaults.merge options.configuration⟩ := by
  rw [TaskGraph.ofWorkflow, Traced.result_bind] at hGraph
  obtain ⟨s, hWalk, hGraph⟩ := bind_eq_ok_iff.mp hGraph
  cases hGraph
  exact ⟨s, walked_of_walk _ _ _ _ _ _ hWalk, rfl⟩

end Walk
end WorkflowDag
