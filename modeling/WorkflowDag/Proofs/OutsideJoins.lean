import WorkflowDag.Proofs.WalkCalls

/-!
# Joins that are entered from outside

A join is entered from outside when a path from the start leads to it without passing a fork that it
closes.  A walk refuses a join while no fork that it closes is being walked.  A join that is refused
is entered from outside (`enteredOutside_of_ofWorkflow`): what is called for while no fork of a join
is being walked lies outside of these forks (`Calls.outside`), since a walk that goes on behind
another join has come to it around them (`avoids_of_pair`).
-/

namespace WorkflowDag

namespace Workflow

/-- The node is a fork that the join closes. -/
def Opens (w : Workflow) (join name : String) : Prop :=
  closing? w.closingJoins name = some join

/-- A transition out of a node that is no fork of the join. -/
def Avoids (w : Workflow) (join name target : String) : Prop :=
  Leads w.nodes name target ∧ ¬w.Opens join name

/-- A path from the start leads to the node and passes no fork of the join. -/
def Outside (w : Workflow) (join : String) : String → Prop :=
  Relation.ReflTransGen (w.Avoids join) Node.startName

/-- The node lies behind a fork of the join. -/
def Inside (w : Workflow) (join name : String) : Prop :=
  ∃ fork, Reachable w.nodes fork ∧ w.Opens join fork ∧ Relation.TransGen (Leads w.nodes) fork name

/-- A path from the start enters the join and has passed none of its forks. -/
def EnteredOutside (w : Workflow) (join : String) : Prop :=
  isJoin w.nodes join = true ∧ w.Outside join join

section

variable {w : Workflow} {join name target : String}

/-- Only forks are closed. -/
theorem not_opens (hNested : Nested w.nodes w.closingJoins) {node : Node}
    (hFind : find? w.nodes name = some node) (hKind : node.kind ≠ .fork) : ¬w.Opens join name := by
  intro hOpens
  obtain ⟨f, hFork, -⟩ := hNested.starts _ (closing?_mem hOpens)
  have hSame : node = .fork f := Option.some.inj (hFind.symm.trans hFork)
  exact hKind (hSame ▸ rfl)

theorem Inside.step (hInside : w.Inside join name) (hLeads : Leads w.nodes name target) :
    w.Inside join target := by
  obtain ⟨fork, hReachable, hOpens, hBehind⟩ := hInside
  exact ⟨fork, hReachable, hOpens, hBehind.tail hLeads⟩

/-- A way around the forks of a join, over forks of which this is known. -/
theorem avoids_of_hops (hNested : Nested w.nodes w.closingJoins) {pairs : Pairs} {last : String}
    (hLead : ∀ pair ∈ pairs, Relation.TransGen (Leads w.nodes) pair.1 pair.2)
    (hJoins : ∀ pair ∈ pairs, isJoin w.nodes pair.2 = true)
    (hPairs : ∀ pair ∈ pairs, Reachable w.nodes pair.1 →
      Relation.TransGen (Leads w.nodes) pair.2 join →
      Relation.ReflTransGen (w.Avoids join) pair.1 pair.2)
    (hLast : Relation.TransGen (Leads w.nodes) last join)
    (hHops : Relation.ReflTransGen (Hops w.nodes pairs) name last) :
    Reachable w.nodes name → Relation.ReflTransGen (w.Avoids join) name last := by
  induction hHops using Relation.ReflTransGen.head_induction_on with
  | refl => exact fun _ => .refl
  | head hHop hRest ih =>
      intro hReachable
      have hOn := ih (hReachable.trans (hHop.transGen hLead))
      cases hHop with
      | next hFind hFork hLeads => exact .head ⟨hLeads, not_opens hNested hFind hFork⟩ hOn
      | across hPair hLeads =>
          obtain ⟨joinName, behind, hFind⟩ := isJoin_iff.mp (hJoins _ hPair)
          have hFurther :=
            Relation.TransGen.head hLeads (.trans_right (Hops.reflTransGen hLead hRest) hLast)
          have hAround := hPairs _ hPair hReachable hFurther
          exact hAround.trans (.head ⟨hLeads, not_opens hNested hFind (by simp [Node.kind])⟩ hOn)

/-- Where a fork is closed by another join further back, a path leads to this join around all forks
of the given one. -/
theorem avoids_of_pair (hWalkable : Walkable w) {pairs : Pairs} (hNested : Nested w.nodes pairs) :
    pairs ⊆ w.closingJoins → ∀ pair ∈ pairs, Reachable w.nodes pair.1 →
      Relation.TransGen (Leads w.nodes) pair.2 join →
      Relation.ReflTransGen (w.Avoids join) pair.1 pair.2 := by
  have hAll := hWalkable.checked.nested
  induction hNested with
  | nil => exact fun _ _ hPair => absurd hPair List.not_mem_nil
  | @concat pairs f last hPairs hFind hNew hStarts hSpans hJoin ih =>
      intro hSubset pair hPair hReachable hLast
      obtain ⟨hEarlier, hOwn⟩ := List.append_subset.mp hSubset
      rcases List.mem_append.mp hPair with hOld | hLatest
      · exact ih hEarlier pair hOld hReachable hLast
      obtain rfl := List.mem_singleton.mp hLatest
      have hMem : (f.name, last) ∈ w.closingJoins := hOwn List.mem_cons_self
      -- The fork is closed by one join only, which does not lead to itself.
      have hOut : ¬w.Opens join f.name := by
        intro hOpens
        have hSame := (closing?_of_mem hAll.keys hMem).symm.trans hOpens
        obtain rfl : last = join := Option.some.inj hSame
        exact hWalkable.not_cycle (hReachable.trans (hAll.leads _ hMem)) hLast
      obtain ⟨path, hLeads, hHops⟩ := hSpans
      exact .head ⟨hLeads, hOut⟩ (avoids_of_hops hAll hPairs.leads hPairs.joins (ih hEarlier) hLast
        hHops (hReachable.step hLeads))

end

end Workflow

namespace Walk

section Gathered

variable {w : Workflow} {options : TaskOptions} {scope : Scope}

theorem Gathers.map_fst {before after : List (String × List Dependency)}
    (hGathers : Gathers before after) : after.map Prod.fst = before.map Prod.fst := by
  induction hGathers with
  | nil => rfl
  | cons hHead _ ih => rw [List.map_cons, List.map_cons, ih, hHead.1]

theorem gather_eq_none_iff {join : String} {incoming : List Dependency}
    {gathered : List (String × List Dependency)} :
    gather join incoming gathered = none ↔ join ∉ gathered.map Prod.fst := by
  induction gathered with
  | nil => simp [gather]
  | cons entry rest ih =>
      obtain ⟨name, edges⟩ := entry
      rw [gather, List.map_cons, List.mem_cons, not_or]
      by_cases hSame : name = join
      · simp [hSame]
      · simp [hSame, Ne.symm hSame, ih]

theorem Underway.map_fst {visits : List Visit} {visit : Visit} {s s1 : State}
    (hUnderway : Underway w options scope visits s visit s1) :
    s1.gathered.map Prod.fst = s.gathered.map Prod.fst := by
  obtain ⟨done, rest, -, hDone⟩ := hUnderway
  exact hDone.gathers.map_fst

end Gathered

section Outside

variable {w : Workflow} {options : TaskOptions} {scope : Scope}

/-- A visit lies outside of the forks of every join that is further on and of which no fork is being
walked. -/
def LiesOutside (w : Workflow) (stage : Visit × State) : Prop :=
  ∀ join, join ∉ stage.2.gathered.map Prod.fst →
    Relation.ReflTransGen (Workflow.Leads w.nodes) stage.1.1 join → w.Outside join stage.1.1

theorem Calls.outside (hWalkable : w.Walkable) {stage next : Visit × State}
    (hReachable : Workflow.Reachable w.nodes stage.1.1) (hOutside : LiesOutside w stage)
    (hCalls : Calls w options scope stage next) : LiesOutside w next := by
  have hNested := hWalkable.checked.nested
  have hLeads := hCalls.transGen hNested
  intro join hClosed hOn
  have hFurther := hLeads.to_reflTransGen.trans hOn
  cases hCalls with
  | start hFind =>
      have hBefore := hOutside join hClosed hFurther
      exact hBefore.tail ⟨(Workflow.Crosses.start hFind).leads,
        Workflow.not_opens hNested hFind (by simp [Node.kind])⟩
  | @outcome name a incoming s s1 s2 visit hFind hReceive hNew hUnderway =>
      rw [hUnderway.map_fst, receive_gathered hReceive] at hClosed
      have hBefore := hOutside join hClosed hFurther
      have hStep : Workflow.Leads w.nodes name visit.1 := by
        rcases List.mem_cons.mp hUnderway.mem with rfl | hLast
        · exact Workflow.leads_ok hFind
        · rw [List.mem_singleton.mp hLast]
          exact Workflow.leads_error hFind
      exact hBefore.tail ⟨hStep, Workflow.not_opens hNested hFind (by simp [Node.kind])⟩
  | branch hFind hResolve hUnderway =>
      obtain ⟨decisions, -, rfl⟩ := exists_records_of_resolve hResolve
      rw [hUnderway.map_fst] at hClosed
      have hBefore := hOutside join hClosed hFurther
      obtain ⟨branch, hBranch, rfl⟩ := List.mem_map.mp hUnderway.mem
      obtain ⟨caseIndex, guard, -, hCross⟩ := crosses_of_mem_branchesOf hFind hBranch
      exact hBefore.tail ⟨hCross.leads, Workflow.not_opens hNested hFind (by simp [Node.kind])⟩
  | @path name own f incoming s s1 visit hFind hClosing hUnderway =>
      rw [hUnderway.map_fst, List.map_cons, List.mem_cons, not_or] at hClosed
      have hBefore := hOutside join hClosed.2 hFurther
      obtain ⟨path, hPath, rfl⟩ := List.mem_map.mp hUnderway.mem
      refine hBefore.tail ⟨Workflow.leads_path hFind hPath, ?_⟩
      exact fun hOpens => hClosed.1 (Option.some.inj (hOpens.symm.trans hClosing))
  | @behind name own joinName behind f incoming edges s s1 s2 hFind hClosing hJoin hPaths
      hRelease =>
      obtain ⟨-, hRest, -⟩ := release_of_gathers hPaths.gathers hRelease
      rw [hRest.map_fst] at hClosed
      have hBefore := hOutside join hClosed hFurther
      -- The walk goes on from the fork to its join around the forks of the other one.
      have hStep : Workflow.Leads w.nodes own behind := (Workflow.Crosses.join hJoin).leads
      have hAround := Workflow.avoids_of_pair hWalkable hNested (List.Subset.refl _) _
        (Workflow.closing?_mem hClosing) hReachable (.head' hStep hOn)
      exact (Relation.ReflTransGen.trans hBefore hAround).tail
        ⟨hStep, Workflow.not_opens hNested hJoin (by simp [Node.kind])⟩

theorem Calls.outside_all (hWalkable : w.Walkable) {stage next : Visit × State}
    (hStages : Relation.ReflTransGen (Calls w options scope) stage next)
    (hReachable : Workflow.Reachable w.nodes stage.1.1) (hOutside : LiesOutside w stage) :
    Workflow.Reachable w.nodes next.1.1 ∧ LiesOutside w next := by
  induction hStages with
  | refl => exact ⟨hReachable, hOutside⟩
  | tail _ hCalls ih =>
      exact ⟨ih.1.trans (hCalls.transGen hWalkable.checked.nested),
        hCalls.outside hWalkable ih.1 ih.2⟩

/-- A visit is refused for coming to a join from outside only where it does. -/
theorem Fails.outsideFork_inversion {stage : Visit × State} {join : String}
    (hFails : Fails w options scope stage (.task join .outsideFork)) :
    stage.1.1 = join ∧ Workflow.isJoin w.nodes join = true ∧
      join ∉ stage.2.gathered.map Prod.fst := by
  cases hFails with
  | task owner hFind hOwner hTask =>
      unfold State.withTask at hTask
      simp only at hTask
      split at hTask
      · split at hTask <;> cases hTask
      · rcases bind_eq_error_iff.mp hTask with hBody | ⟨body, -, hTask⟩
        · cases owner with
          | action a =>
              obtain ⟨cause, -, hCause⟩ := mapError_eq_error_iff.mp (map_eq_error_iff.mp hBody)
              cases hCause
          | kill name message =>
              obtain ⟨cause, -, hCause⟩ := mapError_eq_error_iff.mp (map_eq_error_iff.mp hBody)
              cases hCause
        · cases hTask
  | guards hFind hResolve =>
      unfold State.resolve at hResolve
      split at hResolve
      · cases hResolve
      rw [Traced.result_bind, Traced.result_ofExcept] at hResolve
      rcases bind_eq_error_iff.mp hResolve with hRecord | ⟨record, -, hResolve⟩
      · unfold resolveDecision at hRecord
        split at hRecord
        · cases hRecord
        · simp only at hRecord
          split at hRecord <;> cases hRecord
      · cases hResolve
  | join hFind hGather =>
      exact ⟨rfl, Workflow.isJoin_iff.mpr ⟨_, _, hFind⟩, gather_eq_none_iff.mp hGather⟩

end Outside

end Walk

/-- A join that is refused for being reached outside of its fork is entered from outside. -/
theorem enteredOutside_of_ofWorkflow {w : Workflow} {options : TaskOptions} {join : String}
    (hWalkable : w.Walkable)
    (hGraph : (TaskGraph.ofWorkflow w options).result = .error (.task join .outsideFork)) :
    w.EnteredOutside join := by
  rw [TaskGraph.ofWorkflow, Traced.result_bind] at hGraph
  rcases bind_eq_error_iff.mp hGraph with hWalk | ⟨s, -, hGraph⟩
  · obtain ⟨stage, hStages, hFails⟩ := Walk.exists_fails_of_walk hWalkable _ [] Node.startName
      _ {} _ ⟨.outermost _ _, hWalkable.start, .start w.nodes⟩ hWalk
    obtain ⟨hHere, hJoin, hClosed⟩ := hFails.outsideFork_inversion
    obtain ⟨-, hOutside⟩ := Walk.Calls.outside_all hWalkable hStages (.start w.nodes)
      fun _ _ _ => .refl
    refine ⟨hJoin, hHere ▸ hOutside join hClosed ?_⟩
    rw [hHere]
  · cases hGraph

end WorkflowDag
