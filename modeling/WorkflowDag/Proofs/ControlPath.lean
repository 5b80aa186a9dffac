import WorkflowDag.Proofs.WalkSteps

/-!
# Control paths and their traces

A control path begins at the start or with an outcome of an action that can be reached, and goes on
through decisions, forks and joins only.  Its trace is the dependency that it leaves in the task at
its end: the branches it has passed in order, each with the last join crossed since the branch
before, and the last join crossed behind them all.

The trace of a path is defined on the whole list of its crossings; `trace_concat` says what one more
crossing adds to it.
-/

namespace WorkflowDag

/-- Where a control path begins: at the start, or with an outcome of an action. -/
inductive Origin where
  | start
  | outcome (action : String) (result : Outcome)
deriving DecidableEq

namespace Origin

/-- The task that control comes from. -/
def task? : Origin → Option String
  | start => none
  | outcome action _ => some (Task.idOf action)

/-- The outcome with which control leaves; the start counts as a success. -/
def result : Origin → Outcome
  | start => .success
  | outcome _ result => result

end Origin

/-- What a control path crosses on its way. -/
inductive Crossing where
  /-- Out of the start node, or into a path of a fork. -/
  | plain
  | join (name : String)
  | branch (decision : String) (caseIndex : Option Nat) (guard : Option String)
deriving DecidableEq

namespace Crossing

/-- The branches among the crossings, each with the last join crossed since the branch before.
`last` is the last join crossed so far. -/
def branches : Option String → List Crossing → List PassedBranch
  | _, [] => []
  | last, plain :: rest => branches last rest
  | _, .join name :: rest => branches (some name) rest
  | last, branch decision caseIndex guard :: rest =>
    ⟨decision, caseIndex, guard, last⟩ :: branches none rest

/-- The last join crossed behind all branches. -/
def lastJoin : Option String → List Crossing → Option String
  | last, [] => last
  | last, plain :: rest => lastJoin last rest
  | _, .join name :: rest => lastJoin (some name) rest
  | _, branch _ _ _ :: rest => lastJoin none rest

/-- The dependency that a control path leaves in the task at its end. -/
def trace (origin : Origin) (crossings : List Crossing) : Dependency where
  origin := origin.task?
  outcome := origin.result
  branches := branches none crossings
  join := lastJoin none crossings

/-- What a crossing adds to the trace of the way before it. -/
def extend : Crossing → Dependency → Dependency
  | plain, d => d
  | .join name, d => { d with join := some name }
  | branch decision caseIndex guard, d =>
    { d with branches := d.branches ++ [⟨decision, caseIndex, guard, d.join⟩], join := none }

/-- The branch that a crossing passes, if any. -/
def passed : Option String → Crossing → List PassedBranch
  | last, branch decision caseIndex guard => [⟨decision, caseIndex, guard, last⟩]
  | _, _ => []

theorem branches_concat (crossings : List Crossing) (crossing : Crossing) :
    ∀ last : Option String, branches last (crossings ++ [crossing]) =
      branches last crossings ++ passed (lastJoin last crossings) crossing := by
  induction crossings with
  | nil =>
      intro last
      cases crossing <;> rfl
  | cons first rest ih =>
      intro last
      cases first with
      | plain => exact ih last
      | join name => exact ih (some name)
      | branch decision caseIndex guard =>
          exact congrArg (List.cons ⟨decision, caseIndex, guard, last⟩) (ih none)

theorem lastJoin_concat (crossings : List Crossing) (crossing : Crossing) :
    ∀ last : Option String, lastJoin last (crossings ++ [crossing]) =
      lastJoin (lastJoin last crossings) [crossing] := by
  induction crossings with
  | nil => exact fun last => rfl
  | cons first rest ih =>
      intro last
      cases first with
      | plain => exact ih last
      | join name => exact ih (some name)
      | branch decision caseIndex guard => exact ih none

theorem trace_concat (origin : Origin) (crossings : List Crossing) (crossing : Crossing) :
    trace origin (crossings ++ [crossing]) = crossing.extend (trace origin crossings) := by
  unfold trace
  rw [branches_concat, lastJoin_concat]
  cases crossing with
  | plain => simp only [passed, extend, lastJoin, List.append_nil]
  | join name => simp only [passed, extend, lastJoin, List.append_nil]
  | branch decision caseIndex guard => rfl

/-- Only a way from the start that passes no branch leaves no trace. -/
theorem isBare_trace {origin : Origin} {crossings : List Crossing}
    (hTraced : origin ≠ .start ∨
      ∃ decision caseIndex guard, branch decision caseIndex guard ∈ crossings) :
    Walk.isBare (trace origin crossings) = false := by
  rcases hTraced with hOrigin | ⟨decision, caseIndex, guard, hBranch⟩
  · cases origin with
    | start => exact absurd rfl hOrigin
    | outcome action result => rfl
  · have hPassed : ∀ (crossings : List Crossing) (last : Option String),
        branch decision caseIndex guard ∈ crossings → branches last crossings ≠ [] := by
      intro crossings
      induction crossings with
      | nil => exact fun last hMem => absurd hMem List.not_mem_nil
      | cons first rest ih =>
          intro last hMem
          cases first with
          | plain => exact ih last (by simpa using hMem)
          | join name => exact ih (some name) (by simpa using hMem)
          | branch _ _ _ => exact List.cons_ne_nil _ _
    have hEmpty : (branches none crossings).isEmpty = false :=
      List.isEmpty_eq_false_iff.mpr (hPassed crossings none hBranch)
    unfold Walk.isBare trace
    simp only [hEmpty, Bool.and_false]

/-- Passing a branch on a walk is crossing it. -/
theorem passing_eq_extend (decision : String) (caseIndex : Option Nat) (guard : Option String)
    (d : Dependency) :
    Walk.passing ⟨decision, caseIndex, guard, none⟩ d =
      (branch decision caseIndex guard).extend d := by
  obtain ⟨origin, outcome, branches, join⟩ := d
  cases join <;> rfl

end Crossing

namespace Workflow

/-- A transition through a node that makes no task, and what it crosses. -/
inductive Crosses (w : Workflow) : String → Crossing → String → Prop
  | start {name target : String} (hFind : find? w.nodes name = some (.start target)) :
      Crosses w name .plain target
  | fork {name target : String} {f : Fork} (hFind : find? w.nodes name = some (.fork f))
      (hPath : target ∈ f.paths) : Crosses w name .plain target
  | join {name joinName target : String}
      (hFind : find? w.nodes name = some (.join joinName target)) :
      Crosses w name (.join name) target
  | case {name : String} {d : Decision} {index : Nat} {c : GuardedCase}
      (hFind : find? w.nodes name = some (.decision d)) (hCase : d.cases[index]? = some c) :
      Crosses w name (.branch name (some index) (some c.guard)) c.target
  | fallback {name : String} {d : Decision}
      (hFind : find? w.nodes name = some (.decision d)) :
      Crosses w name (.branch name none none) d.fallback

/-- A control path: where it begins, what it crosses and the node it ends at. -/
inductive ControlPath (w : Workflow) : Origin → List Crossing → String → Prop
  | start : ControlPath w .start [] Node.startName
  | ok {name : String} {a : Action} (hReachable : Reachable w.nodes name)
      (hFind : find? w.nodes name = some (.action a)) :
      ControlPath w (.outcome name .success) [] a.ok
  | error {name : String} {a : Action} (hReachable : Reachable w.nodes name)
      (hFind : find? w.nodes name = some (.action a)) :
      ControlPath w (.outcome name .failure) [] a.error
  | cross {origin : Origin} {crossings : List Crossing} {crossing : Crossing}
      {name target : String} (hPath : ControlPath w origin crossings name)
      (hCross : Crosses w name crossing target) :
      ControlPath w origin (crossings ++ [crossing]) target

section

variable {w : Workflow} {name target : String}

theorem leads_ok {a : Action} (hFind : find? w.nodes name = some (.action a)) :
    Leads w.nodes name a.ok :=
  (leads_iff hFind).mpr ⟨⟨.ok, a.ok, none⟩, List.mem_cons_self, rfl⟩

theorem leads_error {a : Action} (hFind : find? w.nodes name = some (.action a)) :
    Leads w.nodes name a.error :=
  (leads_iff hFind).mpr
    ⟨⟨.error, a.error, none⟩, List.mem_cons_of_mem _ (List.mem_singleton.mpr rfl), rfl⟩

/-- What is crossed is a transition. -/
theorem Crosses.leads {crossing : Crossing} (hCross : Crosses w name crossing target) :
    Leads w.nodes name target := by
  cases hCross with
  | start hFind => exact (leads_iff hFind).mpr ⟨_, List.mem_singleton.mpr rfl, rfl⟩
  | fork hFind hPath => exact leads_path hFind hPath
  | join hFind => exact (leads_iff hFind).mpr ⟨_, List.mem_singleton.mpr rfl, rfl⟩
  | @case d index c hFind hCase =>
      refine (leads_iff hFind).mpr ⟨⟨.case, c.target, some c.guard⟩, ?_, rfl⟩
      exact List.mem_append_left _ (List.mem_map.mpr ⟨c, List.mem_of_getElem? hCase, rfl⟩)
  | @fallback d hFind =>
      refine (leads_iff hFind).mpr ⟨⟨.fallback, d.fallback, none⟩, ?_, rfl⟩
      exact List.mem_append_right _ (List.mem_singleton.mpr rfl)

/-- A branch is crossed at its decision. -/
theorem Crosses.exists_decision {decision : String} {caseIndex : Option Nat}
    {guard : Option String} (hCross : Crosses w name (.branch decision caseIndex guard) target) :
    name = decision ∧ ∃ d, find? w.nodes decision = some (.decision d) := by
  cases hCross with
  | case hFind hCase => exact ⟨rfl, _, hFind⟩
  | fallback hFind => exact ⟨rfl, _, hFind⟩

/-- Every transition is crossed, or it is an outcome of an action. -/
theorem Leads.crosses_or_outcome (hLeads : Leads w.nodes name target) :
    (∃ crossing, Crosses w name crossing target) ∨
      ∃ a, find? w.nodes name = some (.action a) ∧ (target = a.ok ∨ target = a.error) := by
  obtain ⟨node, hFind⟩ := hLeads.exists_find?
  obtain ⟨transition, hMem, rfl⟩ := (leads_iff hFind).mp hLeads
  cases node with
  | start next =>
      rw [List.mem_singleton.mp hMem]
      exact Or.inl ⟨_, .start hFind⟩
  | join joinName next =>
      rw [List.mem_singleton.mp hMem]
      exact Or.inl ⟨_, .join hFind⟩
  | fork f =>
      obtain ⟨path, hPath, rfl⟩ := List.mem_map.mp hMem
      exact Or.inl ⟨_, .fork hFind hPath⟩
  | decision d =>
      rcases List.mem_append.mp hMem with hGuarded | hFallback
      · obtain ⟨c, hCase, rfl⟩ := List.mem_map.mp hGuarded
        obtain ⟨index, hIndex⟩ := List.getElem?_of_mem hCase
        exact Or.inl ⟨_, .case hFind hIndex⟩
      · rw [List.mem_singleton.mp hFallback]
        exact Or.inl ⟨_, .fallback hFind⟩
  | action a =>
      refine Or.inr ⟨a, hFind, ?_⟩
      rcases List.mem_cons.mp hMem with rfl | hError
      · exact Or.inl rfl
      · rw [List.mem_singleton.mp hError]
        exact Or.inr rfl
  | kill killName message => exact absurd hMem List.not_mem_nil
  | finish endName => exact absurd hMem List.not_mem_nil

/-- The crossings of a node, by its kind. -/
theorem Crosses.inversion {node : Node} {crossing : Crossing}
    (hFind : find? w.nodes name = some node) (hCross : Crosses w name crossing target) :
    match node with
    | .start next => crossing = .plain ∧ target = next
    | .fork f => crossing = .plain ∧ target ∈ f.paths
    | .join _ next => crossing = .join name ∧ target = next
    | .decision d =>
      (∃ index c, d.cases[index]? = some c ∧
        crossing = .branch name (some index) (some c.guard) ∧ target = c.target) ∨
      (crossing = .branch name none none ∧ target = d.fallback)
    | _ => False := by
  cases hCross with
  | start hFind' =>
      cases hFind.symm.trans hFind'
      exact ⟨rfl, rfl⟩
  | fork hFind' hPath =>
      cases hFind.symm.trans hFind'
      exact ⟨rfl, hPath⟩
  | join hFind' =>
      cases hFind.symm.trans hFind'
      exact ⟨rfl, rfl⟩
  | case hFind' hCase =>
      cases hFind.symm.trans hFind'
      exact Or.inl ⟨_, _, hCase, rfl, rfl⟩
  | fallback hFind' =>
      cases hFind.symm.trans hFind'
      exact Or.inr ⟨rfl, rfl⟩

/-- Control paths end at nodes that can be reached. -/
theorem ControlPath.reachable {origin : Origin} {crossings : List Crossing}
    (hPath : ControlPath w origin crossings name) : Reachable w.nodes name := by
  induction hPath with
  | start => exact Reachable.start w.nodes
  | ok hReachable hFind => exact hReachable.step (leads_ok hFind)
  | error hReachable hFind => exact hReachable.step (leads_error hFind)
  | cross _ hCross ih => exact ih.step hCross.leads

end

end Workflow
end WorkflowDag
