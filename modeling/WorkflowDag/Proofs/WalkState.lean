import WorkflowDag.Proofs.WalkSteps

/-!
# What a step changes

One statement for each operation on the state of a walk.  Dependencies are only ever added to a
task, once for each key; a task is made only when no task of its id is there; what is gathered at a
join only grows, and the forks whose paths are being walked stay the same from the beginning of a
walk to its end (`Walked.gathers`).
-/

namespace WorkflowDag
namespace Walk

section Dependencies

variable {dependencies incoming : List Dependency}

theorem addDependency_subset (dependencies : List Dependency) (d : Dependency) :
    dependencies ⊆ addDependency dependencies d := by
  intro other hOther
  unfold addDependency
  split
  · exact hOther
  · exact List.mem_append_left _ hOther

/-- A dependency has its key in the list once it has been added, unless it leaves no trace. -/
theorem exists_key_addDependency (dependencies : List Dependency) {d : Dependency}
    (hTrace : isBare d = false) : ∃ other ∈ addDependency dependencies d, other.key = d.key := by
  unfold addDependency
  split
  next hSkip =>
    rw [hTrace, Bool.false_or, List.any_eq_true] at hSkip
    obtain ⟨other, hOther, hKey⟩ := hSkip
    exact ⟨other, hOther, eq_of_beq hKey⟩
  next => exact ⟨d, List.mem_append_right _ (List.mem_singleton.mpr rfl), rfl⟩

theorem mem_addDependency {dependencies : List Dependency} {d other : Dependency}
    (hOther : other ∈ addDependency dependencies d) :
    other ∈ dependencies ∨ (other = d ∧ isBare d = false) := by
  unfold addDependency at hOther
  split at hOther
  next => exact Or.inl hOther
  next hSkip =>
    rw [Bool.or_eq_true, not_or] at hSkip
    rcases List.mem_append.mp hOther with hOld | hNew
    · exact Or.inl hOld
    · exact Or.inr ⟨List.mem_singleton.mp hNew, Bool.eq_false_iff.mpr hSkip.1⟩

theorem addDependency_keys_nodup {dependencies : List Dependency} (d : Dependency)
    (hKeys : (dependencies.map Dependency.key).Nodup) :
    ((addDependency dependencies d).map Dependency.key).Nodup := by
  unfold addDependency
  split
  next => exact hKeys
  next hSkip =>
    rw [Bool.or_eq_true, not_or, List.any_eq_true] at hSkip
    apply nodup_map_concat hKeys
    intro other hOther hSame
    exact hSkip.2 ⟨other, hOther, beq_iff_eq.mpr hSame⟩

theorem foldl_addDependency_subset (incoming : List Dependency) :
    ∀ dependencies : List Dependency, dependencies ⊆ incoming.foldl addDependency dependencies := by
  induction incoming with
  | nil => exact fun dependencies => List.Subset.refl _
  | cons d rest ih =>
      intro dependencies
      exact List.Subset.trans (addDependency_subset dependencies d)
        (ih (addDependency dependencies d))

theorem exists_key_foldl_addDependency (incoming : List Dependency) :
    ∀ (dependencies : List Dependency), ∀ d ∈ incoming, isBare d = false →
      ∃ other ∈ incoming.foldl addDependency dependencies, other.key = d.key := by
  induction incoming with
  | nil => exact fun dependencies d hMem => absurd hMem List.not_mem_nil
  | cons first rest ih =>
      intro dependencies d hMem hTrace
      rcases List.mem_cons.mp hMem with rfl | hLater
      · obtain ⟨other, hOther, hKey⟩ := exists_key_addDependency dependencies hTrace
        exact ⟨other, foldl_addDependency_subset rest _ hOther, hKey⟩
      · exact ih (addDependency dependencies first) d hLater hTrace

theorem mem_foldl_addDependency (incoming : List Dependency) :
    ∀ (dependencies : List Dependency), ∀ d ∈ incoming.foldl addDependency dependencies,
      d ∈ dependencies ∨ (d ∈ incoming ∧ isBare d = false) := by
  induction incoming with
  | nil => exact fun dependencies d hMem => Or.inl hMem
  | cons first rest ih =>
      intro dependencies d hMem
      rcases ih (addDependency dependencies first) d hMem with hBefore | ⟨hLater, hTrace⟩
      · rcases mem_addDependency hBefore with hOld | ⟨rfl, hTrace⟩
        · exact Or.inl hOld
        · exact Or.inr ⟨List.mem_cons_self, hTrace⟩
      · exact Or.inr ⟨List.mem_cons_of_mem first hLater, hTrace⟩

theorem foldl_addDependency_keys_nodup (incoming : List Dependency) :
    ∀ dependencies : List Dependency, (dependencies.map Dependency.key).Nodup →
      ((incoming.foldl addDependency dependencies).map Dependency.key).Nodup := by
  induction incoming with
  | nil => exact fun dependencies hKeys => hKeys
  | cons d rest ih =>
      intro dependencies hKeys
      exact ih (addDependency dependencies d) (addDependency_keys_nodup d hKeys)

end Dependencies

section Tasks

variable {s s1 : State} {scope : Scope} {owner : Owner} {incoming : List Dependency}

/-- The task that is made for a node. -/
def Owner.newTask (owner : Owner) (body : TaskBody) : Task :=
  { id := Task.idOf owner.name, source := owner.name, body }

/-- The tasks once there is one for the owner: as before, or with a task made at the end. -/
inductive Provides (scope : Scope) (owner : Owner) (before : List Task) : List Task → Prop
  | found {task : Task} (hTask : task ∈ before) (hId : task.id = Task.idOf owner.name)
      (hSource : task.source = owner.name) : Provides scope owner before before
  | made {body : TaskBody} (hBody : bodyOf scope owner = .ok body)
      (hFresh : ∀ task ∈ before, task.id ≠ Task.idOf owner.name) :
      Provides scope owner before (before ++ [owner.newTask body])

/-- Control that comes to a node changes tasks only: one is made if need be, and the dependencies of
that one grow. -/
theorem exists_provides_of_receive (hReceive : s.receive scope owner incoming = .ok s1) :
    ∃ tasks, Provides scope owner s.tasks tasks ∧
      s1 = { s with tasks := tasks.map fun task =>
        if task.id == Task.idOf owner.name then addDependencies incoming task else task } := by
  obtain ⟨s2, hTask, rfl⟩ := map_eq_ok_iff.mp hReceive
  unfold State.withTask at hTask
  simp only at hTask
  cases hFind : s.tasks.find? fun task => task.id == Task.idOf owner.name with
  | some task =>
      rw [hFind] at hTask
      have hId := List.find?_some hFind
      have hMem := List.mem_of_find?_eq_some hFind
      by_cases hSource : (task.source == owner.name) = true
      · simp only [if_pos hSource] at hTask
        cases hTask
        exact ⟨s.tasks, .found hMem (eq_of_beq hId) (eq_of_beq hSource), rfl⟩
      · -- A task of this id that stands for another node ends the walk.
        simp only [if_neg hSource] at hTask
        cases hTask
  | none =>
      rw [hFind] at hTask
      obtain ⟨body, hBody, hTask⟩ := bind_eq_ok_iff.mp hTask
      cases hTask
      refine ⟨_, .made hBody ?_, rfl⟩
      intro task hMem hId
      exact List.find?_eq_none.mp hFind task hMem (beq_iff_eq.mpr hId)

/-- A task after control has come to a node: a former task or the one made for the node, whose
dependencies may have grown. -/
theorem mem_tasks_of_receive (hReceive : s.receive scope owner incoming = .ok s1) {task : Task}
    (hTask : task ∈ s1.tasks) :
    ∃ former : Task,
      (former ∈ s.tasks ∨ ∃ body, bodyOf scope owner = .ok body ∧ former = owner.newTask body) ∧
      (task = former ∨
        (former.id = Task.idOf owner.name ∧ task = addDependencies incoming former)) := by
  obtain ⟨tasks, hProvides, rfl⟩ := exists_provides_of_receive hReceive
  obtain ⟨former, hFormer, hSame⟩ := List.mem_map.mp hTask
  refine ⟨former, ?_, ?_⟩
  · cases hProvides with
    | found _ _ _ => exact Or.inl hFormer
    | made hBody _ =>
        rcases List.mem_append.mp hFormer with hOld | hNew
        · exact Or.inl hOld
        · exact Or.inr ⟨_, hBody, List.mem_singleton.mp hNew⟩
  · by_cases hId : (former.id == Task.idOf owner.name) = true
    · rw [if_pos hId] at hSame
      exact Or.inr ⟨eq_of_beq hId, hSame.symm⟩
    · rw [if_neg hId] at hSame
      exact Or.inl hSame.symm

/-- A task stays, and so do its dependencies. -/
theorem exists_task_of_receive (hReceive : s.receive scope owner incoming = .ok s1)
    {former : Task} (hFormer : former ∈ s.tasks) :
    ∃ task ∈ s1.tasks, task.source = former.source ∧
      former.dependencies ⊆ task.dependencies := by
  obtain ⟨tasks, hProvides, rfl⟩ := exists_provides_of_receive hReceive
  have hMem : former ∈ tasks := by
    cases hProvides with
    | found _ _ _ => exact hFormer
    | made _ _ => exact List.mem_append_left _ hFormer
  refine ⟨_, List.mem_map_of_mem hMem, ?_⟩
  split
  · exact ⟨rfl, foldl_addDependency_subset incoming former.dependencies⟩
  · exact ⟨rfl, List.Subset.refl _⟩

/-- The node that control has come to has a task, and what has come is among its dependencies. -/
theorem exists_task_of_received (hReceive : s.receive scope owner incoming = .ok s1) :
    ∃ task ∈ s1.tasks, task.source = owner.name ∧
      ∀ d ∈ incoming, isBare d = false → ∃ other ∈ task.dependencies, other.key = d.key := by
  obtain ⟨tasks, hProvides, rfl⟩ := exists_provides_of_receive hReceive
  have hOwned : ∃ task ∈ tasks, task.id = Task.idOf owner.name ∧ task.source = owner.name := by
    cases hProvides with
    | found hTask hId hSource => exact ⟨_, hTask, hId, hSource⟩
    | made _ _ =>
        exact ⟨_, List.mem_append_right _ (List.mem_singleton.mpr rfl), rfl, rfl⟩
  obtain ⟨task, hTask, hId, hSource⟩ := hOwned
  refine ⟨_, List.mem_map_of_mem hTask, ?_⟩
  rw [if_pos (beq_iff_eq.mpr hId)]
  exact ⟨hSource, exists_key_foldl_addDependency incoming task.dependencies⟩

/-- Task ids stay distinct. -/
theorem ids_nodup_of_receive (hReceive : s.receive scope owner incoming = .ok s1)
    (hIds : (s.tasks.map Task.id).Nodup) : (s1.tasks.map Task.id).Nodup := by
  obtain ⟨tasks, hProvides, rfl⟩ := exists_provides_of_receive hReceive
  have hSame : (tasks.map fun task => if task.id == Task.idOf owner.name then
      addDependencies incoming task else task).map Task.id = tasks.map Task.id := by
    rw [List.map_map]
    apply List.map_congr_left
    intro task _
    simp only [Function.comp_apply]
    split <;> rfl
  show List.Nodup (List.map Task.id _)
  rw [hSame]
  cases hProvides with
  | found _ _ _ => exact hIds
  | made _ hFresh => exact nodup_map_concat hIds hFresh

theorem receive_followed (hReceive : s.receive scope owner incoming = .ok s1) :
    s1.followed = s.followed := by
  obtain ⟨tasks, -, rfl⟩ := exists_provides_of_receive hReceive
  rfl

theorem receive_decisions (hReceive : s.receive scope owner incoming = .ok s1) :
    s1.decisions = s.decisions := by
  obtain ⟨tasks, -, rfl⟩ := exists_provides_of_receive hReceive
  rfl

theorem receive_gathered (hReceive : s.receive scope owner incoming = .ok s1) :
    s1.gathered = s.gathered := by
  obtain ⟨tasks, -, rfl⟩ := exists_provides_of_receive hReceive
  rfl

end Tasks

section Decisions

variable {s s1 : State} {options : TaskOptions} {scope : Scope} {d : Decision}

/-- The records once a decision has been resolved: as before, or with its record at the end. -/
inductive Records (options : TaskOptions) (scope : Scope) (d : Decision)
    (before : List ResolvedDecision) : List ResolvedDecision → Prop
  | known {record : ResolvedDecision} (hRecord : record ∈ before)
      (hName : record.decision = d.name) : Records options scope d before before
  | made {record : ResolvedDecision} (hResolve : resolveDecision options scope d = .ok record)
      (hFresh : ∀ other ∈ before, other.decision ≠ d.name) :
      Records options scope d before (before ++ [record])

/-- Resolving a decision changes records only. -/
theorem exists_records_of_resolve (hResolve : (s.resolve options scope d).result = .ok s1) :
    ∃ decisions, Records options scope d s.decisions decisions ∧ s1 = { s with decisions } := by
  unfold State.resolve at hResolve
  split at hResolve
  next hAny =>
    cases hResolve
    obtain ⟨record, hRecord, hName⟩ := List.any_eq_true.mp hAny
    exact ⟨s.decisions, .known hRecord (eq_of_beq hName), rfl⟩
  next hAny =>
    rw [Traced.result_bind] at hResolve
    obtain ⟨record, hRecord, hResolve⟩ := bind_eq_ok_iff.mp hResolve
    cases hResolve
    refine ⟨_, .made hRecord ?_, rfl⟩
    intro other hOther hName
    exact hAny (List.any_eq_true.mpr ⟨other, hOther, beq_iff_eq.mpr hName⟩)

theorem resolveDecision_decision {record : ResolvedDecision}
    (hResolve : resolveDecision options scope d = .ok record) : record.decision = d.name := by
  unfold resolveDecision at hResolve
  split at hResolve
  · cases hResolve
  · simp only at hResolve
    split at hResolve
    · cases hResolve
    · cases hResolve
      rfl

end Decisions

section Gathering

variable {join : String} {incoming : List Dependency}

/-- What is gathered at each join grows; the joins stay the same. -/
def Gathers : List (String × List Dependency) → List (String × List Dependency) → Prop :=
  List.Forall₂ fun before after => before.1 = after.1 ∧ before.2 ⊆ after.2

theorem Gathers.refl (gathered : List (String × List Dependency)) : Gathers gathered gathered := by
  induction gathered with
  | nil => exact List.Forall₂.nil
  | cons entry rest ih => exact List.Forall₂.cons ⟨rfl, List.Subset.refl _⟩ ih

theorem Gathers.trans {first second third : List (String × List Dependency)}
    (hFirst : Gathers first second) (hSecond : Gathers second third) : Gathers first third := by
  induction hFirst generalizing third with
  | nil => exact hSecond
  | cons hHead _ ih =>
      cases hSecond with
      | cons hHead' hTail' =>
          exact List.Forall₂.cons ⟨hHead.1.trans hHead'.1, List.Subset.trans hHead.2 hHead'.2⟩
            (ih hTail')

theorem Gathers.exists_mem {before after : List (String × List Dependency)}
    (hGathers : Gathers before after) {entry : String × List Dependency} (hEntry : entry ∈ before) :
    ∃ later ∈ after, later.1 = entry.1 ∧ entry.2 ⊆ later.2 := by
  induction hGathers with
  | nil => exact absurd hEntry List.not_mem_nil
  | cons hHead _ ih =>
      rcases List.mem_cons.mp hEntry with rfl | hRest
      · exact ⟨_, List.mem_cons_self, hHead.1.symm, hHead.2⟩
      · obtain ⟨later, hLater, hSame⟩ := ih hRest
        exact ⟨later, List.mem_cons_of_mem _ hLater, hSame⟩

theorem gather_gathers (gathered : List (String × List Dependency)) :
    ∀ after, gather join incoming gathered = some after → Gathers gathered after := by
  induction gathered with
  | nil =>
      intro after hGather
      cases hGather
  | cons entry rest ih =>
      obtain ⟨name, edges⟩ := entry
      intro after hGather
      rw [gather] at hGather
      split at hGather
      · cases hGather
        exact List.Forall₂.cons ⟨rfl, List.subset_append_left _ _⟩ (Gathers.refl rest)
      · obtain ⟨later, hLater, rfl⟩ := Option.map_eq_some_iff.mp hGather
        exact List.Forall₂.cons ⟨rfl, List.Subset.refl _⟩ (ih later hLater)

/-- What comes to a join is gathered there. -/
theorem exists_entry_of_gather (gathered : List (String × List Dependency)) :
    ∀ after, gather join incoming gathered = some after →
      ∃ entry ∈ after, entry.1 = join ∧ incoming ⊆ entry.2 := by
  induction gathered with
  | nil =>
      intro after hGather
      cases hGather
  | cons entry rest ih =>
      obtain ⟨name, edges⟩ := entry
      intro after hGather
      rw [gather] at hGather
      split at hGather
      next hName =>
        cases hGather
        exact ⟨_, List.mem_cons_self, eq_of_beq hName, List.subset_append_right _ _⟩
      next =>
        obtain ⟨later, hLater, rfl⟩ := Option.map_eq_some_iff.mp hGather
        obtain ⟨entry, hEntry, hSame⟩ := ih later hLater
        exact ⟨entry, List.mem_cons_of_mem _ hEntry, hSame⟩

/-- Nothing else is gathered. -/
theorem mem_gather (gathered : List (String × List Dependency)) :
    ∀ after, gather join incoming gathered = some after → ∀ entry ∈ after, ∀ d ∈ entry.2,
      (∃ former ∈ gathered, former.1 = entry.1 ∧ d ∈ former.2) ∨
        (entry.1 = join ∧ d ∈ incoming) := by
  induction gathered with
  | nil =>
      intro after hGather
      cases hGather
  | cons first rest ih =>
      obtain ⟨name, edges⟩ := first
      intro after hGather entry hEntry d hd
      rw [gather] at hGather
      split at hGather
      next hName =>
        cases hGather
        rcases List.mem_cons.mp hEntry with rfl | hRest
        · rcases List.mem_append.mp hd with hOld | hNew
          · exact Or.inl ⟨_, List.mem_cons_self, rfl, hOld⟩
          · exact Or.inr ⟨eq_of_beq hName, hNew⟩
        · exact Or.inl ⟨entry, List.mem_cons_of_mem _ hRest, rfl, hd⟩
      next =>
        obtain ⟨later, hLater, rfl⟩ := Option.map_eq_some_iff.mp hGather
        rcases List.mem_cons.mp hEntry with rfl | hRest
        · exact Or.inl ⟨_, List.mem_cons_self, rfl, hd⟩
        · rcases ih later hLater entry hRest d hd with ⟨former, hFormer, hSame⟩ | hNew
          · exact Or.inl ⟨former, List.mem_cons_of_mem _ hFormer, hSame⟩
          · exact Or.inr hNew

/-- After the paths of a fork, its own entry is the first and is the one released. -/
theorem release_of_gathers {s s1 s2 : State} {edges : List Dependency}
    (hPaths : Gathers ((join, []) :: s.gathered) s1.gathered)
    (hRelease : s1.release join = (edges, s2)) :
    s1.gathered = (join, edges) :: s2.gathered ∧ Gathers s.gathered s2.gathered ∧
      s2 = { s1 with gathered := s2.gathered } := by
  generalize hGathered : s1.gathered = gathered at hPaths
  cases hPaths with
  | @cons _ entry _ rest hHead hTail =>
      obtain ⟨name, edges'⟩ := entry
      have hName : join = name := hHead.1
      subst hName
      unfold State.release at hRelease
      rw [hGathered] at hRelease
      simp only [BEq.rfl, if_true] at hRelease
      cases hRelease
      exact ⟨rfl, hTail, rfl⟩

/-- Along a walk the joins of the open forks stay the same, and what is gathered there grows. -/
theorem Walked.gathers {w : Workflow} {options : TaskOptions} {scope : Scope}
    {visits : List Visit} {s s' : State} (hWalked : Walked w options scope visits s s') :
    Gathers s.gathered s'.gathered := by
  induction hWalked with
  | nil s => exact Gathers.refl _
  | cons _ _ ihFirst ihRest => exact ihFirst.trans ihRest
  | finish _ => exact Gathers.refl _
  | kill _ hReceive =>
      rw [receive_gathered hReceive]
      exact Gathers.refl _
  | start _ _ ih => exact ih
  | again _ hReceive _ =>
      rw [receive_gathered hReceive]
      exact Gathers.refl _
  | action _ hReceive _ ih =>
      rw [← receive_gathered hReceive]
      exact ih
  | decision _ hResolve _ ih =>
      obtain ⟨decisions, -, rfl⟩ := exists_records_of_resolve hResolve
      exact ih
  | fork _ _ _ _ hRelease _ ihPaths ihBehind =>
      obtain ⟨-, hRest, -⟩ := release_of_gathers ihPaths hRelease
      exact hRest.trans ihBehind
  | join _ hGather => exact gather_gathers _ _ hGather

end Gathering

end Walk
end WorkflowDag
