import WorkflowDag.Proofs.ControlPath
import WorkflowDag.Proofs.WalkState

/-!
# A walk invents nothing

Everything that a walk writes down comes from the workflow.  A task belongs to an action or kill
that can be reached, and each of its dependencies is the trace of a control path to that node; what
is gathered at a join is the trace of a control path to the join; a record is the resolution of a
decision.  `Sound` is this invariant of the state and `Walked.sound` its preservation.
-/

namespace WorkflowDag
namespace Walk

/-- The dependency is the trace of a control path to the node. -/
def Arrives (w : Workflow) (name : String) (d : Dependency) : Prop :=
  ∃ origin crossings, w.ControlPath origin crossings name ∧ Crossing.trace origin crossings = d

theorem Arrives.cross {w : Workflow} {name target : String} {d : Dependency} {crossing : Crossing}
    (hArrives : Arrives w name d) (hCross : w.Crosses name crossing target) :
    Arrives w target (crossing.extend d) := by
  obtain ⟨origin, crossings, hPath, rfl⟩ := hArrives
  exact ⟨origin, crossings ++ [crossing], hPath.cross hCross,
    Crossing.trace_concat origin crossings crossing⟩

/-- The node can be reached, and each dependency is the trace of a control path to it. -/
def VisitSound (w : Workflow) (visit : Visit) : Prop :=
  Workflow.Reachable w.nodes visit.1 ∧ ∀ d ∈ visit.2, Arrives w visit.1 d

/-- A crossing takes a sound visit to a sound one. -/
theorem VisitSound.cross {w : Workflow} {name target : String} {incoming : List Dependency}
    {crossing : Crossing} (hVisit : VisitSound w (name, incoming))
    (hCross : w.Crosses name crossing target) :
    VisitSound w (target, incoming.map crossing.extend) := by
  refine ⟨hVisit.1.step hCross.leads, ?_⟩
  intro d hd
  obtain ⟨before, hBefore, rfl⟩ := List.mem_map.mp hd
  exact (hVisit.2 before hBefore).cross hCross

theorem VisitSound.cross_plain {w : Workflow} {name target : String} {incoming : List Dependency}
    (hVisit : VisitSound w (name, incoming)) (hCross : w.Crosses name .plain target) :
    VisitSound w (target, incoming) := by
  have hNext := hVisit.cross hCross
  rwa [show Crossing.plain.extend = id from rfl, List.map_id] at hNext

/-- The task of a node that can be reached, with traces of control paths to it as dependencies. -/
structure TaskSound (w : Workflow) (scope : Scope) (task : Task) : Prop where
  id : task.id = Task.idOf task.source
  reachable : Workflow.Reachable w.nodes task.source
  owned : ∃ node owner, Workflow.find? w.nodes task.source = some node ∧
    Owner.ofNode? node = some owner ∧ bodyOf scope owner = .ok task.body
  rule : task.triggerRule = .ofDependencies task.dependencies
  arrives : ∀ d ∈ task.dependencies, isBare d = false ∧ Arrives w task.source d
  keys : (task.dependencies.map Dependency.key).Nodup

/-- What the walk has written down comes from the workflow. -/
structure Sound (w : Workflow) (options : TaskOptions) (scope : Scope) (s : State) : Prop where
  tasks : ∀ task ∈ s.tasks, TaskSound w scope task
  ids : (s.tasks.map Task.id).Nodup
  gathered : ∀ entry ∈ s.gathered, ∀ d ∈ entry.2, Arrives w entry.1 d
  decisions : ∀ record ∈ s.decisions, ∃ d, Workflow.find? w.nodes record.decision =
    some (.decision d) ∧ resolveDecision options scope d = .ok record
  recorded : (s.decisions.map ResolvedDecision.decision).Nodup

section

variable {w : Workflow} {options : TaskOptions} {scope : Scope}

theorem Sound.empty : Sound w options scope {} where
  tasks := fun _ hTask => absurd hTask List.not_mem_nil
  ids := List.nodup_nil
  gathered := fun _ hEntry => absurd hEntry List.not_mem_nil
  decisions := fun _ hRecord => absurd hRecord List.not_mem_nil
  recorded := List.nodup_nil

theorem TaskSound.addDependencies {task : Task} {incoming : List Dependency}
    (hTask : TaskSound w scope task) (hIncoming : ∀ d ∈ incoming, Arrives w task.source d) :
    TaskSound w scope (addDependencies incoming task) where
  id := hTask.id
  reachable := hTask.reachable
  owned := hTask.owned
  rule := rfl
  arrives := by
    intro d hd
    rcases mem_foldl_addDependency incoming task.dependencies d hd with hOld | ⟨hNew, hTrace⟩
    · exact hTask.arrives d hOld
    · exact ⟨hTrace, hIncoming d hNew⟩
  keys := foldl_addDependency_keys_nodup incoming task.dependencies hTask.keys

theorem TaskSound.made {node : Node} {owner : Owner} {body : TaskBody}
    (hReachable : Workflow.Reachable w.nodes owner.name)
    (hFind : Workflow.find? w.nodes owner.name = some node)
    (hOwner : Owner.ofNode? node = some owner) (hBody : bodyOf scope owner = .ok body) :
    TaskSound w scope (owner.newTask body) where
  id := rfl
  reachable := hReachable
  owned := ⟨node, owner, hFind, hOwner, hBody⟩
  rule := rfl
  arrives := fun _ hd => absurd hd List.not_mem_nil
  keys := List.nodup_nil

/-- A task with the id of an owner that receives control stands for this very owner: that is what
receiving has checked. -/
theorem source_of_receive {owner : Owner} {incoming : List Dependency} {s s1 : State} {task : Task}
    (hIds : (s.tasks.map Task.id).Nodup) (hReceive : s.receive scope owner incoming = .ok s1)
    (hTask : task ∈ s.tasks) (hId : task.id = Task.idOf owner.name) : task.source = owner.name := by
  obtain ⟨tasks, hProvides, -⟩ := exists_provides_of_receive hReceive
  cases hProvides with
  | @found other hOther hOtherId hOtherSource =>
      have hSame : task = other :=
        List.inj_on_of_nodup_map hIds hTask hOther (hId.trans hOtherId.symm)
      rw [hSame, hOtherSource]
  | made _ hFresh => exact absurd hId (hFresh task hTask)

/-- Control that comes to the owner of a task by a sound visit keeps the invariant. -/
theorem Sound.receive {node : Node} {owner : Owner} {incoming : List Dependency}
    {s s1 : State} (hSound : Sound w options scope s)
    (hReceive : s.receive scope owner incoming = .ok s1)
    (hFind : Workflow.find? w.nodes owner.name = some node)
    (hOwner : Owner.ofNode? node = some owner) (hVisit : VisitSound w (owner.name, incoming)) :
    Sound w options scope s1 where
  tasks := by
    intro task hTask
    obtain ⟨former, hFormer, hGrown⟩ := mem_tasks_of_receive hReceive hTask
    have hFormerSound : TaskSound w scope former := by
      rcases hFormer with hOld | ⟨body, hBody, rfl⟩
      · exact hSound.tasks former hOld
      · exact TaskSound.made hVisit.1 hFind hOwner hBody
    rcases hGrown with rfl | ⟨hId, rfl⟩
    · exact hFormerSound
    · have hSource : former.source = owner.name := by
        rcases hFormer with hOld | ⟨body, hBody, rfl⟩
        · exact source_of_receive hSound.ids hReceive hOld hId
        · rfl
      apply hFormerSound.addDependencies
      rw [hSource]
      exact hVisit.2
  ids := ids_nodup_of_receive hReceive hSound.ids
  gathered := by
    rw [receive_gathered hReceive]
    exact hSound.gathered
  decisions := by
    rw [receive_decisions hReceive]
    exact hSound.decisions
  recorded := by
    rw [receive_decisions hReceive]
    exact hSound.recorded

/-- What is gathered may change as long as it arrives where it is gathered. -/
theorem Sound.withGathered {s : State} {gathered : List (String × List Dependency)}
    (hSound : Sound w options scope s)
    (hGathered : ∀ entry ∈ gathered, ∀ d ∈ entry.2, Arrives w entry.1 d) :
    Sound w options scope { s with gathered } :=
  ⟨hSound.tasks, hSound.ids, hGathered, hSound.decisions, hSound.recorded⟩

/-- The invariant says nothing about which actions have been followed. -/
theorem Sound.withFollowed {s : State} (hSound : Sound w options scope s) (followed : List String) :
    Sound w options scope { s with followed } :=
  ⟨hSound.tasks, hSound.ids, hSound.gathered, hSound.decisions, hSound.recorded⟩

theorem Sound.resolve {name : String} {d : Decision} {s s1 : State}
    (hSound : Sound w options scope s)
    (hFind : Workflow.find? w.nodes name = some (.decision d))
    (hResolve : (s.resolve options scope d).result = .ok s1) : Sound w options scope s1 := by
  obtain ⟨decisions, hRecords, rfl⟩ := exists_records_of_resolve hResolve
  have hName : d.name = name := Workflow.name_of_find? hFind
  cases hRecords with
  | known _ _ =>
      exact ⟨hSound.tasks, hSound.ids, hSound.gathered, hSound.decisions, hSound.recorded⟩
  | @made record hRecord hFresh =>
      have hDecision := resolveDecision_decision hRecord
      refine ⟨hSound.tasks, hSound.ids, hSound.gathered, ?_, ?_⟩
      · intro other hOther
        rcases List.mem_append.mp hOther with hOld | hNew
        · exact hSound.decisions other hOld
        · rw [List.mem_singleton.mp hNew]
          refine ⟨d, ?_, hRecord⟩
          rw [hDecision, hName]
          exact hFind
      · apply nodup_map_concat hSound.recorded
        rw [hDecision]
        exact hFresh

/-- The steps through the branches of a decision. -/
theorem mem_branchesOf {d : Decision} {branch : PassedBranch × String}
    (hBranch : branch ∈ branchesOf d) :
    (∃ index c, d.cases[index]? = some c ∧
        branch = (⟨d.name, some index, some c.guard, none⟩, c.target)) ∨
      branch = (⟨d.name, none, none, none⟩, d.fallback) := by
  rcases List.mem_append.mp hBranch with hCase | hFallback
  · obtain ⟨index, hIndex, hSame⟩ := List.mem_mapIdx.mp hCase
    exact Or.inl ⟨index, d.cases[index], List.getElem?_eq_getElem hIndex, hSame.symm⟩
  · exact Or.inr (List.mem_singleton.mp hFallback)

/-- Each branch is a crossing of the decision. -/
theorem crosses_of_mem_branchesOf {name : String} {d : Decision} {branch : PassedBranch × String}
    (hFind : Workflow.find? w.nodes name = some (.decision d)) (hBranch : branch ∈ branchesOf d) :
    ∃ caseIndex guard, branch.1 = ⟨name, caseIndex, guard, none⟩ ∧
      w.Crosses name (.branch name caseIndex guard) branch.2 := by
  have hName : d.name = name := Workflow.name_of_find? hFind
  rcases mem_branchesOf hBranch with ⟨index, c, hCase, rfl⟩ | rfl
  · exact ⟨some index, some c.guard, by rw [hName], .case hFind hCase⟩
  · exact ⟨none, none, by rw [hName], .fallback hFind⟩

/-- What comes through a branch arrives at its target. -/
theorem branchVisits_sound {name : String} {d : Decision} {incoming : List Dependency}
    (hFind : Workflow.find? w.nodes name = some (.decision d))
    (hVisit : VisitSound w (name, incoming)) :
    ∀ visit ∈ branchVisits d incoming, VisitSound w visit := by
  intro visit hMem
  obtain ⟨branch, hBranch, rfl⟩ := List.mem_map.mp hMem
  obtain ⟨caseIndex, guard, hStep, hCross⟩ := crosses_of_mem_branchesOf hFind hBranch
  have hPassing : passing branch.1 = (Crossing.branch name caseIndex guard).extend := by
    funext before
    rw [hStep, Crossing.passing_eq_extend]
  rw [hPassing]
  exact hVisit.cross hCross

theorem outcomeVisits_sound {name : String} {a : Action}
    (hFind : Workflow.find? w.nodes name = some (.action a))
    (hReachable : Workflow.Reachable w.nodes name) :
    ∀ visit ∈ outcomeVisits name a, VisitSound w visit := by
  intro visit hMem
  rcases List.mem_cons.mp hMem with rfl | hMem
  · refine ⟨hReachable.step (Workflow.leads_ok hFind), ?_⟩
    intro d hd
    rw [List.mem_singleton.mp hd]
    exact ⟨.outcome name .success, [], .ok hReachable hFind, rfl⟩
  · rw [List.mem_singleton.mp hMem]
    refine ⟨hReachable.step (Workflow.leads_error hFind), ?_⟩
    intro d hd
    rw [List.mem_singleton.mp hd]
    exact ⟨.outcome name .failure, [], .error hReachable hFind, rfl⟩

theorem pathVisits_sound {name : String} {f : Fork} {incoming : List Dependency}
    (hFind : Workflow.find? w.nodes name = some (.fork f))
    (hVisit : VisitSound w (name, incoming)) :
    ∀ visit ∈ f.paths.map fun path => (path, incoming), VisitSound w visit := by
  intro visit hMem
  obtain ⟨path, hPath, rfl⟩ := List.mem_map.mp hMem
  exact hVisit.cross_plain (.fork hFind hPath)

/-- A fork that is walked into has gathered nothing yet. -/
theorem Sound.opened {s : State} (hSound : Sound w options scope s) (join : String) :
    Sound w options scope { s with gathered := (join, []) :: s.gathered } := by
  apply hSound.withGathered
  intro entry hEntry
  rcases List.mem_cons.mp hEntry with rfl | hOld
  · exact fun d hd => absurd hd List.not_mem_nil
  · exact hSound.gathered entry hOld

/-- What a fork has gathered goes on behind its join. -/
theorem Sound.released {name join joinName behind : String} {edges : List Dependency}
    {s s1 s2 : State} (hNested : Workflow.Nested w.nodes w.closingJoins)
    (hClosing : Workflow.closing? w.closingJoins name = some join)
    (hJoin : Workflow.find? w.nodes join = some (.join joinName behind))
    (hReachable : Workflow.Reachable w.nodes name) (hSound : Sound w options scope s1)
    (hGathers : Gathers ((join, []) :: s.gathered) s1.gathered)
    (hRelease : s1.release join = (edges, s2)) :
    VisitSound w (joinVisit join behind edges) ∧ Sound w options scope s2 := by
  obtain ⟨hGathered, -, hState⟩ := release_of_gathers hGathers hRelease
  -- The join lies behind the fork even when nothing new has been gathered there.
  have hAtJoin : VisitSound w (join, edges) :=
    ⟨hReachable.trans (hNested.leads _ (Workflow.closing?_mem hClosing)),
      hSound.gathered _ (hGathered ▸ List.mem_cons_self)⟩
  refine ⟨hAtJoin.cross (.join hJoin), ?_⟩
  rw [hState]
  apply hSound.withGathered
  intro entry hEntry
  exact hSound.gathered entry (hGathered ▸ List.mem_cons_of_mem _ hEntry)

/-- A walk keeps the invariant. -/
theorem Walked.sound {visits : List Visit} {s s' : State}
    (hNested : Workflow.Nested w.nodes w.closingJoins)
    (hWalked : Walked w options scope visits s s') (hVisits : ∀ visit ∈ visits, VisitSound w visit)
    (hSound : Sound w options scope s) : Sound w options scope s' := by
  induction hWalked with
  | nil s => exact hSound
  | cons _ _ ihFirst ihRest =>
      have hFirst := hVisits _ List.mem_cons_self
      apply ihRest (fun visit hVisit => hVisits visit (List.mem_cons_of_mem _ hVisit))
      exact ihFirst (fun visit hVisit => List.mem_singleton.mp hVisit ▸ hFirst) hSound
  | finish _ => exact hSound
  | @kill name killName message incoming s s1 hFind hReceive =>
      have hName : killName = name := Workflow.name_of_find? hFind
      subst hName
      exact hSound.receive hReceive hFind rfl (hVisits _ List.mem_cons_self)
  | @start name target incoming s s1 hFind hNext ih =>
      refine ih ?_ hSound
      intro visit hVisit
      rw [List.mem_singleton.mp hVisit]
      exact (hVisits _ List.mem_cons_self).cross_plain (.start hFind)
  | @again name a incoming s s1 hFind hReceive hFollowed =>
      have hName : a.name = name := Workflow.name_of_find? hFind
      subst hName
      exact hSound.receive hReceive hFind rfl (hVisits _ List.mem_cons_self)
  | @action name a incoming s s1 s2 hFind hReceive hOutcomes ih =>
      have hName : a.name = name := Workflow.name_of_find? hFind
      subst hName
      have hVisit := hVisits _ List.mem_cons_self
      exact ih (outcomeVisits_sound hFind hVisit.1)
        ((hSound.receive hReceive hFind rfl hVisit).withFollowed _)
  | decision hFind hResolve _ ih =>
      exact ih (branchVisits_sound hFind (hVisits _ List.mem_cons_self))
        (hSound.resolve hFind hResolve)
  | @fork name join joinName behind f incoming edges s s1 s2 s3 hFind hClosing hJoin hPaths hRelease
      _ ihPaths ihBehind =>
      have hVisit := hVisits _ List.mem_cons_self
      have hClosed := ihPaths (pathVisits_sound hFind hVisit) (hSound.opened join)
      obtain ⟨hNext, hReleased⟩ :=
        hClosed.released hNested hClosing hJoin hVisit.1 hPaths.gathers hRelease
      exact ihBehind (fun visit hMem => List.mem_singleton.mp hMem ▸ hNext) hReleased
  | join hFind hGather =>
      obtain ⟨-, hArrives⟩ := hVisits _ List.mem_cons_self
      apply hSound.withGathered
      intro entry hEntry d hd
      rcases mem_gather _ _ hGather entry hEntry d hd with ⟨former, hFormer, hSame, hMem⟩ | hNew
      · exact hSame ▸ hSound.gathered former hFormer d hMem
      · exact hNew.1 ▸ hArrives d hNew.2

end

end Walk
end WorkflowDag
