import WorkflowDag.Proofs.WalkSound

/-!
# Where a walk fails

A walk that fails has come to some node and state where it can go no further.  `Calls` says which
visits, and in which states, are made from a visit: each of them after those before it have been
made.  `Fails` says what is wrong with a visit itself.  `exists_fails_of_walk` finds the visit that
fails, so what is kept from call to call holds where the walk has failed.

The walk also guards against cycles, missing nodes and forks without joins, but reading has refused
these already (`Walkable`): every node on the path of a walk leads to the node that is walked on
from, over a fork to what stands behind its join as well, so with no cycle within reach the path
holds no node twice and the walk does not run out of steps (`OnPath`).
-/

namespace WorkflowDag

namespace Workflow

/-- What a walk relies on. -/
structure Walkable (w : Workflow) : Prop where
  checked : Checked w
  start : ∃ node, find? w.nodes Node.startName = some node
  links : ∀ name target, Leads w.nodes name target → ∃ node, find? w.nodes target = some node

theorem walkable_of_read {source : String} {w : Workflow}
    (hRead : (read source).result = .ok w) : Walkable w := by
  obtain ⟨-, -, hLink⟩ := linked_of_read hRead
  obtain ⟨hStart, hLinks, -, -⟩ := link_eq_ok_iff.mp hLink
  refine ⟨checked_of_read hRead, hStart, ?_⟩
  intro name target hLeads
  obtain ⟨node, hFind⟩ := hLeads.exists_find?
  obtain ⟨t, hTransition, rfl⟩ := (leads_iff hFind).mp hLeads
  exact checkLinks_eq_ok_iff.mp hLinks node (mem_of_find? hFind) t hTransition

variable {w : Workflow} {name : String}

theorem Walkable.not_cycle (hWalkable : Walkable w) (hName : Reachable w.nodes name) :
    ¬Relation.TransGen (Leads w.nodes) name name := by
  obtain ⟨rank, hRank⟩ := hWalkable.checked.ranked
  exact fun hCycle => Nat.lt_irrefl _ (hRank.lt_of_transGen hName hCycle)

/-- From a fork transitions lead to what stands behind its join. -/
theorem Nested.leads_behind (hNested : Nested w.nodes w.closingJoins)
    {join joinName behind : String}
    (hClosing : closing? w.closingJoins name = some join)
    (hJoin : find? w.nodes join = some (.join joinName behind)) :
    Relation.TransGen (Leads w.nodes) name behind := by
  have hOver := hNested.leads _ (closing?_mem hClosing)
  exact hOver.tail ((leads_iff hJoin).mpr ⟨⟨.next, behind, none⟩, List.mem_cons_self, rfl⟩)

end Workflow

namespace Walk

/-- A walk comes to the node over this path, with as many steps left as a path through all nodes
could take. -/
structure OnPath (w : Workflow) (steps : Nat) (path : List String) (name : String) : Prop where
  enclosed : Workflow.Enclosed w.nodes steps path name
  found : ∃ node, Workflow.find? w.nodes name = some node
  reachable : Workflow.Reachable w.nodes name

/-- One of the visits is about to be made, those before it have led from the first state to the
second. -/
def Underway (w : Workflow) (options : TaskOptions) (scope : Scope) (visits : List Visit)
    (s : State) (visit : Visit) (s' : State) : Prop :=
  ∃ done rest, visits = done ++ visit :: rest ∧ Walked w options scope done s s'

/-- A visit and the state it is made in call for another. -/
inductive Calls (w : Workflow) (options : TaskOptions) (scope : Scope) :
    Visit × State → Visit × State → Prop
  | start {name target : String} {incoming : List Dependency} {s : State}
      (hFind : Workflow.find? w.nodes name = some (.start target)) :
      Calls w options scope ((name, incoming), s) ((target, incoming), s)
  | outcome {name : String} {a : Action} {incoming : List Dependency} {s s1 s2 : State}
      {visit : Visit} (hFind : Workflow.find? w.nodes name = some (.action a))
      (hReceive : s.receive scope (.action a) incoming = .ok s1) (hNew : name ∉ s1.followed)
      (hUnderway : Underway w options scope (outcomeVisits name a)
        { s1 with followed := name :: s1.followed } visit s2) :
      Calls w options scope ((name, incoming), s) (visit, s2)
  | branch {name : String} {d : Decision} {incoming : List Dependency} {s s1 s2 : State}
      {visit : Visit} (hFind : Workflow.find? w.nodes name = some (.decision d))
      (hResolve : (s.resolve options scope d).result = .ok s1)
      (hUnderway : Underway w options scope (branchVisits d incoming) s1 visit s2) :
      Calls w options scope ((name, incoming), s) (visit, s2)
  | path {name join : String} {f : Fork} {incoming : List Dependency} {s s1 : State}
      {visit : Visit} (hFind : Workflow.find? w.nodes name = some (.fork f))
      (hClosing : Workflow.closing? w.closingJoins name = some join)
      (hUnderway : Underway w options scope (f.paths.map fun path => (path, incoming))
        { s with gathered := (join, []) :: s.gathered } visit s1) :
      Calls w options scope ((name, incoming), s) (visit, s1)
  | behind {name join joinName behind : String} {f : Fork} {incoming edges : List Dependency}
      {s s1 s2 : State} (hFind : Workflow.find? w.nodes name = some (.fork f))
      (hClosing : Workflow.closing? w.closingJoins name = some join)
      (hJoin : Workflow.find? w.nodes join = some (.join joinName behind))
      (hPaths : Walked w options scope (f.paths.map fun path => (path, incoming))
        { s with gathered := (join, []) :: s.gathered } s1)
      (hRelease : s1.release join = (edges, s2)) :
      Calls w options scope ((name, incoming), s) (joinVisit join behind edges, s2)

/-- A visit fails on its own account. -/
inductive Fails (w : Workflow) (options : TaskOptions) (scope : Scope) :
    Visit × State → Error → Prop
  | task (owner : Owner) {node : Node} {incoming : List Dependency} {s : State} {e : Error}
      (hFind : Workflow.find? w.nodes owner.name = some node)
      (hOwner : Owner.ofNode? node = some owner) (hTask : s.withTask scope owner = .error e) :
      Fails w options scope ((owner.name, incoming), s) e
  | guards {name : String} {d : Decision} {incoming : List Dependency} {s : State} {e : Error}
      (hFind : Workflow.find? w.nodes name = some (.decision d))
      (hResolve : (s.resolve options scope d).result = .error e) :
      Fails w options scope ((name, incoming), s) e
  | join {name joinName target : String} {incoming : List Dependency} {s : State}
      (hFind : Workflow.find? w.nodes name = some (.join joinName target))
      (hGather : gather name incoming s.gathered = none) :
      Fails w options scope ((name, incoming), s) (.task name .outsideFork)

section

variable {w : Workflow} {options : TaskOptions} {scope : Scope}

theorem OnPath.stepOnto {steps : Nat} {path : List String} {name : String}
    (hPath : OnPath w steps path name) (hWalkable : w.Walkable) :
    stepOnto path name = .ok () := by
  have hNew := hPath.enclosed.notMem (hWalkable.not_cycle hPath.reachable)
  unfold Walk.stepOnto
  rw [if_neg fun hMem => hNew (List.contains_iff_mem.mp hMem)]

/-- A walk that goes on with a node further along has the one before on its path. -/
theorem OnPath.next {steps : Nat} {path : List String} {name target : String}
    (hPath : OnPath w (steps + 1) path name) (hWalkable : w.Walkable)
    (hLeads : Relation.TransGen (Workflow.Leads w.nodes) name target) :
    OnPath w steps (path ++ [name]) target := by
  obtain ⟨node, hFind⟩ := hPath.found
  have hNew := hPath.enclosed.notMem (hWalkable.not_cycle hPath.reachable)
  have hNested := hPath.enclosed.nest hNew hFind hLeads
  refine ⟨hNested.perm (List.perm_append_singleton name path), ?_, hPath.reachable.trans hLeads⟩
  obtain ⟨before, -, hLast⟩ := Relation.TransGen.tail'_iff.mp hLeads
  exact hWalkable.links before target hLast

theorem Underway.mem {visits : List Visit} {visit : Visit} {s s' : State}
    (hUnderway : Underway w options scope visits s visit s') : visit ∈ visits := by
  obtain ⟨done, rest, rfl, -⟩ := hUnderway
  exact List.mem_append_right done List.mem_cons_self

theorem Underway.first (visit : Visit) (rest : List Visit) (s : State) :
    Underway w options scope (visit :: rest) s visit s :=
  ⟨[], rest, rfl, .nil s⟩

theorem Underway.later {visits : List Visit} {visit next : Visit} {s s1 s2 : State}
    (hFirst : Walked w options scope [visit] s s1)
    (hUnderway : Underway w options scope visits s1 next s2) :
    Underway w options scope (visit :: visits) s next s2 := by
  obtain ⟨done, rest, rfl, hDone⟩ := hUnderway
  exact ⟨visit :: done, rest, rfl, hFirst.visit_then hDone⟩

/-- A fold of walks that fails does so at one of its visits, with those before it made. -/
theorem exists_underway_of_foldlM {α : Type} (visitOf : α → Visit) {one : State → α → Traced State}
    (hOne : ∀ s item s1, (one s item).result = .ok s1 →
      Walked w options scope [visitOf item] s s1) (items : List α) :
    ∀ (s : State) (e : Error), (items.foldlM one s).result = .error e →
      ∃ item ∈ items, ∃ between,
        Underway w options scope (items.map visitOf) s (visitOf item) between ∧
          (one between item).result = .error e := by
  induction items with
  | nil =>
      intro s e hFold
      cases hFold
  | cons item rest ih =>
      intro s e hFold
      rw [List.foldlM_cons, Traced.result_bind] at hFold
      rcases bind_eq_error_iff.mp hFold with hFirst | ⟨s1, hFirst, hFold⟩
      · exact ⟨item, List.mem_cons_self, s, .first _ _ s, hFirst⟩
      · obtain ⟨other, hOther, between, hUnderway, hFails⟩ := ih s1 e hFold
        exact ⟨other, List.mem_cons_of_mem item hOther, between,
          hUnderway.later (hOne s item s1 hFirst), hFails⟩

/-- Calls go along transitions, over a fork to what stands behind its join as well. -/
theorem Calls.transGen (hNested : Workflow.Nested w.nodes w.closingJoins)
    {stage next : Visit × State} (hCalls : Calls w options scope stage next) :
    Relation.TransGen (Workflow.Leads w.nodes) stage.1.1 next.1.1 := by
  cases hCalls with
  | start hFind => exact .single (Workflow.Crosses.start hFind).leads
  | @outcome name a _ _ _ _ visit hFind _ _ hUnderway =>
      rcases List.mem_cons.mp hUnderway.mem with rfl | hLast
      · exact .single (Workflow.leads_ok hFind)
      · rw [List.mem_singleton.mp hLast]
        exact .single (Workflow.leads_error hFind)
  | branch hFind _ hUnderway =>
      obtain ⟨branch, hBranch, rfl⟩ := List.mem_map.mp hUnderway.mem
      obtain ⟨caseIndex, guard, -, hCross⟩ := crosses_of_mem_branchesOf hFind hBranch
      exact .single hCross.leads
  | path hFind _ hUnderway =>
      obtain ⟨path, hPath, rfl⟩ := List.mem_map.mp hUnderway.mem
      exact .single (Workflow.leads_path hFind hPath)
  | behind _ hClosing hJoin _ _ => exact hNested.leads_behind hClosing hJoin

/-- What is called for comes from the workflow when the caller does. -/
theorem Calls.sound (hNested : Workflow.Nested w.nodes w.closingJoins)
    {stage next : Visit × State} (hCalls : Calls w options scope stage next)
    (hVisit : VisitSound w stage.1) (hSound : Sound w options scope stage.2) :
    VisitSound w next.1 ∧ Sound w options scope next.2 := by
  -- Visits that have been made before the one called for leave the state sound.
  have hVisits : ∀ {visits : List Visit} {visit : Visit} {s s1 : State},
      (∀ visit ∈ visits, VisitSound w visit) → Sound w options scope s →
      Underway w options scope visits s visit s1 →
      VisitSound w visit ∧ Sound w options scope s1 := by
    rintro visits visit s s1 hAll hBefore ⟨done, rest, rfl, hDone⟩
    refine ⟨hAll visit (List.mem_append_right done List.mem_cons_self), ?_⟩
    exact hDone.sound hNested
      (fun other hOther => hAll other (List.mem_append_left _ hOther)) hBefore
  cases hCalls with
  | start hFind => exact ⟨hVisit.cross_plain (.start hFind), hSound⟩
  | @outcome name a incoming s s1 s2 visit hFind hReceive _ hUnderway =>
      obtain rfl : a.name = name := Workflow.name_of_find? hFind
      exact hVisits (outcomeVisits_sound hFind hVisit.1)
        ((hSound.receive hReceive hFind rfl hVisit).withFollowed _) hUnderway
  | branch hFind hResolve hUnderway =>
      exact hVisits (branchVisits_sound hFind hVisit) (hSound.resolve hFind hResolve) hUnderway
  | path hFind _ hUnderway =>
      exact hVisits (pathVisits_sound hFind hVisit) (hSound.opened _) hUnderway
  | behind hFind hClosing hJoin hPaths hRelease =>
      have hClosed := hPaths.sound hNested (pathVisits_sound hFind hVisit) (hSound.opened _)
      exact hClosed.released hNested hClosing hJoin hVisit.1 hPaths.gathers hRelease

theorem Calls.sound_all (hNested : Workflow.Nested w.nodes w.closingJoins)
    {stage next : Visit × State}
    (hStages : Relation.ReflTransGen (Calls w options scope) stage next)
    (hVisit : VisitSound w stage.1) (hSound : Sound w options scope stage.2) :
    VisitSound w next.1 ∧ Sound w options scope next.2 := by
  induction hStages with
  | refl => exact ⟨hVisit, hSound⟩
  | tail _ hCalls ih => exact hCalls.sound hNested ih.1 ih.2

/-- A walk that fails has called for a visit that fails. -/
theorem exists_fails_of_walk (hWalkable : w.Walkable) (steps : Nat) :
    ∀ (path : List String) (name : String) (incoming : List Dependency) (s : State) (e : Error),
      OnPath w steps path name →
      (walk w options scope steps path name incoming s).result = .error e →
      ∃ stage, Relation.ReflTransGen (Calls w options scope) ((name, incoming), s) stage ∧
        Fails w options scope stage e := by
  induction steps with
  | zero =>
      intro path name incoming s e hPath
      exact absurd rfl hPath.enclosed.levels_ne_zero
  | succ steps ih =>
      intro path name incoming s e hPath hWalk
      obtain ⟨node, hFind⟩ := hPath.found
      have hOnto := hPath.stepOnto hWalkable
      -- The walk goes on from a visit that is called for here.
      have hNext : ∀ {visit : Visit} {s1 : State},
          Calls w options scope ((name, incoming), s) (visit, s1) →
          (walk w options scope steps (path ++ [name]) visit.1 visit.2 s1).result = .error e →
          ∃ stage, Relation.ReflTransGen (Calls w options scope) ((name, incoming), s) stage ∧
            Fails w options scope stage e := by
        intro visit s1 hCalls hFurther
        have hLeads := hCalls.transGen hWalkable.checked.nested
        obtain ⟨stage, hStages, hFails⟩ :=
          ih _ _ _ _ _ (hPath.next hWalkable hLeads) hFurther
        exact ⟨stage, .head hCalls hStages, hFails⟩
      have hHere : Fails w options scope ((name, incoming), s) e →
          ∃ stage, Relation.ReflTransGen (Calls w options scope) ((name, incoming), s) stage ∧
            Fails w options scope stage e :=
        fun hFails => ⟨_, .refl, hFails⟩
      rw [walk, hFind] at hWalk
      cases node with
      | finish endName => cases hWalk
      | kill killName message =>
          obtain rfl : killName = name := Workflow.name_of_find? hFind
          simp only [Traced.result_bind, Traced.result_ofExcept] at hWalk
          rcases bind_eq_error_iff.mp hWalk with hTask | ⟨s1, -, hWalk⟩
          · exact hHere (.task (.kill killName message) hFind rfl hTask)
          · cases hWalk
      | start target =>
          simp only [Traced.result_bind, Traced.result_ofExcept, hOnto, ok_bind] at hWalk
          exact hNext (.start hFind) hWalk
      | action a =>
          obtain rfl : a.name = name := Workflow.name_of_find? hFind
          simp only [Traced.result_bind, Traced.result_ofExcept, hOnto, ok_bind] at hWalk
          rcases bind_eq_error_iff.mp hWalk with hTask | ⟨s1, hTask, hWalk⟩
          · exact hHere (.task (.action a) hFind rfl hTask)
          have hReceive : s.receive scope (.action a) incoming =
              .ok (s1.addDependencies (Task.idOf a.name) incoming) :=
            map_eq_ok_iff.mpr ⟨s1, hTask, rfl⟩
          split at hWalk
          · cases hWalk
          next hContains =>
            have hNew := fun hMem => hContains (List.contains_iff_mem.mpr hMem)
            rw [Traced.result_bind] at hWalk
            -- The way on from success is walked first and leaves its state to the one from failure.
            rcases bind_eq_error_iff.mp hWalk with hOk | ⟨s4, hOk, hError⟩
            · exact hNext (.outcome hFind hReceive hNew (.first _ _ _)) hOk
            · exact hNext (.outcome hFind hReceive hNew
                ((Underway.first _ _ s4).later (walked_of_walk _ _ _ _ _ _ hOk))) hError
      | decision d =>
          simp only [Traced.result_bind, Traced.result_ofExcept, hOnto, ok_bind] at hWalk
          rcases bind_eq_error_iff.mp hWalk with hResolve | ⟨s1, hResolve, hWalk⟩
          · exact hHere (.guards hFind hResolve)
          obtain ⟨branch, -, between, hUnderway, hFails⟩ := exists_underway_of_foldlM
            (fun branch => (branch.2, incoming.map (passing branch.1)))
            (fun _ _ _ hOne => walked_of_walk _ _ _ _ _ _ hOne) (branchesOf d) s1 e hWalk
          exact hNext (.branch hFind hResolve hUnderway) hFails
      | fork f =>
          obtain ⟨join, joinName, behind, hClosing, hJoin⟩ := hWalkable.checked.exists_join hFind
          simp only [hClosing, hJoin, Traced.result_bind, Traced.result_ofExcept, hOnto,
            ok_bind] at hWalk
          rcases bind_eq_error_iff.mp hWalk with hPaths | ⟨s1, hPaths, hBehind⟩
          · obtain ⟨path, -, between, hUnderway, hFails⟩ := exists_underway_of_foldlM
              (fun path => (path, incoming))
              (fun _ _ _ hOne => walked_of_walk _ _ _ _ _ _ hOne) f.paths _ e hPaths
            exact hNext (.path hFind hClosing hUnderway) hFails
          · have hWalked := walked_of_foldlM (fun _ _ _ hOne => walked_of_walk _ _ _ _ _ _ hOne)
              f.paths _ s1 hPaths
            exact hNext (.behind hFind hClosing hJoin hWalked rfl) hBehind
      | join joinName target =>
          cases hGather : gather name incoming s.gathered with
          | none =>
              simp only [hGather] at hWalk
              cases hWalk
              exact hHere (.join hFind hGather)
          | some gathered =>
              simp only [hGather] at hWalk
              cases hWalk

end

end Walk
end WorkflowDag
