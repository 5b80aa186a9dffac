import Mathlib.Data.Set.Basic
import WorkflowDag.Proofs.WalkSound

/-!
# A walk misses nothing

A token is a node that the walk has come to, alone or with one of the dependencies that led into it.
`Covers` says that the tokens seen so far have been handled: a task has been made and holds the key
of the dependency, and what lies across a decision, a fork or a join has been seen too.  Two
exceptions hold while the walk is under way.  A token at a join may still be held among what is
gathered there, and a token may be promised: it is seen once the visits that stand open are done.
`Walked.covers` discharges the promises, so that none are left when the walk ends.
-/

namespace WorkflowDag
namespace Walk

/-- A node that the walk has come to, alone or with a dependency that led into it. -/
abbrev Token := String × Option Dependency

/-- The tokens of a visit. -/
def tokensOf (visit : Visit) : Set Token :=
  fun token => token.1 = visit.1 ∧ ∀ d, token.2 = some d → d ∈ visit.2

/-- The node of the token has a task, which holds the key of the dependency. -/
def HasTask (s : State) (token : Token) : Prop :=
  ∃ task ∈ s.tasks, task.source = token.1 ∧
    ∀ d, token.2 = some d → isBare d = false → ∃ other ∈ task.dependencies, other.key = d.key

/-- The token is among what has been gathered at its join. -/
def Held (s : State) (token : Token) : Prop :=
  ∃ entry ∈ s.gathered, entry.1 = token.1 ∧ ∀ d, token.2 = some d → d ∈ entry.2

/-- What lies across the node of the token is known. -/
def CrossedInto (w : Workflow) (known : Set Token) (token : Token) : Prop :=
  ∀ crossing target, w.Crosses token.1 crossing target →
    (target, token.2.map crossing.extend) ∈ known

/-- What a token asks for, by the kind of its node. -/
def Handled (w : Workflow) (known : Set Token) (s : State) (token : Token) : Node → Prop
  | .finish _ => True
  | .kill _ _ => HasTask s token
  | .action _ => HasTask s token ∧ token.1 ∈ s.followed
  | .decision _ =>
    (∃ record ∈ s.decisions, record.decision = token.1) ∧ CrossedInto w known token
  | .start _ => CrossedInto w known token
  | .fork _ => CrossedInto w known token
  | .join _ _ => CrossedInto w known token ∨ Held s token

/-- Every token seen has been handled, up to what is promised. -/
structure Covers (w : Workflow) (promised seen : Set Token) (s : State) : Prop where
  handled : ∀ token ∈ seen, ∀ node, Workflow.find? w.nodes token.1 = some node →
    Handled w (seen ∪ promised) s token node
  outcomes : ∀ name ∈ s.followed, ∀ a, Workflow.find? w.nodes name = some (.action a) →
    ∀ visit ∈ outcomeVisits name a, tokensOf visit ⊆ seen ∪ promised

/-- Nothing that a token may rely on is lost from one state to the next. -/
structure Keeps (s s1 : State) : Prop where
  tasks : ∀ former ∈ s.tasks, ∃ task ∈ s1.tasks, task.source = former.source ∧
    former.dependencies ⊆ task.dependencies
  followed : s.followed ⊆ s1.followed
  decisions : s.decisions ⊆ s1.decisions
  gathered : ∀ entry ∈ s.gathered, ∃ later ∈ s1.gathered, later.1 = entry.1 ∧ entry.2 ⊆ later.2

section

variable {w : Workflow} {options : TaskOptions} {scope : Scope} {promised seen known : Set Token}
  {s s1 : State} {token : Token}

theorem HasTask.keep (hKeeps : Keeps s s1) (hTask : HasTask s token) : HasTask s1 token := by
  obtain ⟨former, hFormer, hSource, hKeys⟩ := hTask
  obtain ⟨task, hTask, hSame, hGrows⟩ := hKeeps.tasks former hFormer
  refine ⟨task, hTask, hSame.trans hSource, ?_⟩
  intro d hd hTrace
  obtain ⟨other, hOther, hKey⟩ := hKeys d hd hTrace
  exact ⟨other, hGrows hOther, hKey⟩

theorem Held.keep (hKeeps : Keeps s s1) (hHeld : Held s token) : Held s1 token := by
  obtain ⟨entry, hEntry, hName, hMem⟩ := hHeld
  obtain ⟨later, hLater, hSame, hGrows⟩ := hKeeps.gathered entry hEntry
  exact ⟨later, hLater, hSame.trans hName, fun d hd => hGrows (hMem d hd)⟩

theorem CrossedInto.mono {more : Set Token} (hMore : known ⊆ more)
    (hCrossed : CrossedInto w known token) : CrossedInto w more token :=
  fun crossing target hCross => hMore (hCrossed crossing target hCross)

/-- A token stays handled as long as what is held is either crossed or held on. -/
theorem Handled.transfer {more : Set Token} {node : Node} (hMore : known ⊆ more)
    (hTask : HasTask s token → HasTask s1 token) (hFollowed : s.followed ⊆ s1.followed)
    (hDecisions : s.decisions ⊆ s1.decisions)
    (hHeld : Held s token → CrossedInto w more token ∨ Held s1 token)
    (hHandled : Handled w known s token node) : Handled w more s1 token node := by
  cases node with
  | finish endName => trivial
  | kill killName message => exact hTask hHandled
  | action a => exact ⟨hTask hHandled.1, hFollowed hHandled.2⟩
  | decision d =>
      obtain ⟨⟨record, hRecord, hName⟩, hCrossed⟩ := hHandled
      exact ⟨⟨record, hDecisions hRecord, hName⟩, hCrossed.mono hMore⟩
  | start target => exact CrossedInto.mono hMore hHandled
  | fork f => exact CrossedInto.mono hMore hHandled
  | join joinName target =>
      rcases hHandled with hCrossed | hBefore
      · exact Or.inl (hCrossed.mono hMore)
      · exact hHeld hBefore

theorem Handled.mono {more : Set Token} {node : Node} (hMore : known ⊆ more)
    (hKeeps : Keeps s s1) (hHandled : Handled w known s token node) :
    Handled w more s1 token node :=
  hHandled.transfer hMore (HasTask.keep hKeeps) hKeeps.followed hKeeps.decisions
    fun hHeld => Or.inr (hHeld.keep hKeeps)

theorem Keeps.refl (s : State) : Keeps s s where
  tasks := fun former hFormer => ⟨former, hFormer, rfl, List.Subset.refl _⟩
  followed := List.Subset.refl _
  decisions := List.Subset.refl _
  gathered := fun entry hEntry => ⟨entry, hEntry, rfl, List.Subset.refl _⟩

theorem Keeps.of_receive {owner : Owner} {incoming : List Dependency}
    (hReceive : s.receive scope owner incoming = .ok s1) : Keeps s s1 where
  tasks := fun _ hFormer => exists_task_of_receive hReceive hFormer
  followed := receive_followed hReceive ▸ List.Subset.refl _
  decisions := receive_decisions hReceive ▸ List.Subset.refl _
  gathered := fun entry hEntry =>
    ⟨entry, receive_gathered hReceive ▸ hEntry, rfl, List.Subset.refl _⟩

theorem Keeps.of_resolve {d : Decision} (hResolve : (s.resolve options scope d).result = .ok s1) :
    Keeps s s1 ∧ s1.followed = s.followed ∧
      ∃ record ∈ s1.decisions, record.decision = d.name := by
  obtain ⟨decisions, hRecords, rfl⟩ := exists_records_of_resolve hResolve
  have hDecisions : s.decisions ⊆ decisions ∧ ∃ record ∈ decisions, record.decision = d.name := by
    cases hRecords with
    | known hRecord hName => exact ⟨List.Subset.refl _, _, hRecord, hName⟩
    | made hRecord _ =>
        refine ⟨List.subset_append_left _ _, _, ?_, resolveDecision_decision hRecord⟩
        exact List.mem_append_right _ (List.mem_singleton.mpr rfl)
  exact ⟨⟨(Keeps.refl s).tasks, (Keeps.refl s).followed, hDecisions.1, (Keeps.refl s).gathered⟩,
    rfl, hDecisions.2⟩

/-- The tokens seen stay handled along a change that follows no further action. -/
theorem Covers.keep (hCovers : Covers w promised seen s) (hKeeps : Keeps s s1)
    (hFollowed : s1.followed = s.followed) : Covers w promised seen s1 where
  handled := fun token hToken node hFind =>
    (hCovers.handled token hToken node hFind).mono (Set.Subset.refl _) hKeeps
  outcomes := hFollowed ▸ hCovers.outcomes

/-- The tokens of a visit are seen once they have been handled. -/
theorem Covers.see {before : Set Token} {name : String} {incoming : List Dependency} {node : Node}
    (hCovers : Covers w promised seen s) (hBefore : before ⊆ seen)
    (hFind : Workflow.find? w.nodes name = some node)
    (hVisit : ∀ token ∈ tokensOf (name, incoming), Handled w (seen ∪ promised) s token node) :
    ∃ seen', before ⊆ seen' ∧ (∀ visit ∈ [(name, incoming)], tokensOf visit ⊆ seen') ∧
      Covers w promised seen' s := by
  have hMore : seen ∪ promised ⊆ seen ∪ tokensOf (name, incoming) ∪ promised :=
    Set.union_subset_union_left promised Set.subset_union_left
  refine ⟨seen ∪ tokensOf (name, incoming), Set.Subset.trans hBefore Set.subset_union_left,
    ?_, ?_, ?_⟩
  · intro visit hMem
    rw [List.mem_singleton.mp hMem]
    exact Set.subset_union_right
  · intro token hToken node' hFind'
    rcases hToken with hOld | hNew
    · exact (hCovers.handled token hOld node' hFind').mono hMore (Keeps.refl s)
    · rw [hNew.1, hFind] at hFind'
      cases hFind'
      exact (hVisit token hNew).mono hMore (Keeps.refl s)
  · intro other hOther a hAction visit hMem
    exact Set.Subset.trans (hCovers.outcomes other hOther a hAction visit hMem) hMore

/-- Promises that have been kept can be dropped. -/
theorem Covers.keepPromise {kept : Set Token} (hCovers : Covers w (promised ∪ kept) seen s)
    (hKept : kept ⊆ seen) : Covers w promised seen s := by
  have hMore : seen ∪ (promised ∪ kept) ⊆ seen ∪ promised := by
    rintro token (hSeen | hPromised | hToken)
    · exact Or.inl hSeen
    · exact Or.inr hPromised
    · exact Or.inl (hKept hToken)
  exact ⟨fun token hToken node hFind =>
      (hCovers.handled token hToken node hFind).mono hMore (Keeps.refl s),
    fun name hName a hAction visit hVisit =>
      Set.Subset.trans (hCovers.outcomes name hName a hAction visit hVisit) hMore⟩

theorem HasTask.of_receive {owner : Owner} {incoming : List Dependency}
    (hReceive : s.receive scope owner incoming = .ok s1) :
    ∀ token ∈ tokensOf (owner.name, incoming), HasTask s1 token := by
  intro token hToken
  obtain ⟨task, hTask, hSource, hKeys⟩ := exists_task_of_received hReceive
  exact ⟨task, hTask, hSource.trans hToken.1.symm, fun d hd => hKeys d (hToken.2 d hd)⟩

/-- A crossing carries the tokens of a visit to those of the next one. -/
theorem crossed_mem {crossing : Crossing} {visit next : Visit} (hToken : token ∈ tokensOf visit)
    (hNext : ∀ d ∈ visit.2, crossing.extend d ∈ next.2) (hSeen : tokensOf next ⊆ known) :
    (next.1, token.2.map crossing.extend) ∈ known := by
  apply hSeen
  refine ⟨rfl, ?_⟩
  intro d hd
  obtain ⟨before, hBefore, rfl⟩ := Option.map_eq_some_iff.mp hd
  exact hNext before (hToken.2 before hBefore)

theorem crossedInto_start {name target : String} {incoming : List Dependency}
    (hFind : Workflow.find? w.nodes name = some (.start target))
    (hSeen : tokensOf (target, incoming) ⊆ known) :
    ∀ token ∈ tokensOf (name, incoming), CrossedInto w known token := by
  intro token hToken crossing target' hCross
  rw [hToken.1] at hCross
  obtain ⟨rfl, rfl⟩ := hCross.inversion hFind
  exact crossed_mem hToken (fun d hd => hd) hSeen

theorem crossedInto_fork {name : String} {f : Fork} {incoming : List Dependency}
    (hFind : Workflow.find? w.nodes name = some (.fork f))
    (hSeen : ∀ path ∈ f.paths, tokensOf (path, incoming) ⊆ known) :
    ∀ token ∈ tokensOf (name, incoming), CrossedInto w known token := by
  intro token hToken crossing target hCross
  rw [hToken.1] at hCross
  obtain ⟨rfl, hPath⟩ := hCross.inversion hFind
  exact crossed_mem hToken (fun d hd => hd) (hSeen target hPath)

theorem crossedInto_join {name joinName behind : String} {edges : List Dependency}
    (hFind : Workflow.find? w.nodes name = some (.join joinName behind))
    (hSeen : tokensOf (joinVisit name behind edges) ⊆ known) :
    ∀ token ∈ tokensOf (name, edges), CrossedInto w known token := by
  intro token hToken crossing target hCross
  rw [hToken.1] at hCross
  obtain ⟨rfl, rfl⟩ := hCross.inversion hFind
  exact crossed_mem hToken (fun d hd => List.mem_map_of_mem hd) hSeen

theorem crossedInto_decision {name : String} {d : Decision} {incoming : List Dependency}
    (hFind : Workflow.find? w.nodes name = some (.decision d))
    (hSeen : ∀ visit ∈ branchVisits d incoming, tokensOf visit ⊆ known) :
    ∀ token ∈ tokensOf (name, incoming), CrossedInto w known token := by
  intro token hToken crossing target hCross
  have hName : d.name = name := Workflow.name_of_find? hFind
  rw [hToken.1] at hCross
  -- The branch that is crossed is one of those the walk visits.
  have hBranch : ∃ step, (step, target) ∈ branchesOf d ∧
      ∀ before, crossing.extend before = passing step before := by
    rcases hCross.inversion hFind with ⟨index, c, hCase, rfl, rfl⟩ | ⟨rfl, rfl⟩
    · refine ⟨⟨name, some index, some c.guard, none⟩, ?_, ?_⟩
      · obtain ⟨hIndex, hSame⟩ := List.getElem?_eq_some_iff.mp hCase
        refine List.mem_append_left _ (List.mem_mapIdx.mpr ⟨index, hIndex, ?_⟩)
        rw [hSame, hName]
      · exact fun before => (Crossing.passing_eq_extend _ _ _ before).symm
    · refine ⟨⟨name, none, none, none⟩, ?_, ?_⟩
      · exact List.mem_append_right _ (List.mem_singleton.mpr (by rw [hName]))
      · exact fun before => (Crossing.passing_eq_extend _ _ _ before).symm
  obtain ⟨step, hStep, hExtend⟩ := hBranch
  have hVisit := hSeen _ (List.mem_map_of_mem hStep)
  refine crossed_mem hToken ?_ hVisit
  intro before hBefore
  rw [hExtend]
  exact List.mem_map_of_mem hBefore

/-- Tokens held at the join of a fork go on as promises once the fork is closed. -/
theorem Covers.release {join joinName behind : String} {edges : List Dependency}
    (hJoin : Workflow.find? w.nodes join = some (.join joinName behind))
    (hGathered : s.gathered = (join, edges) :: s1.gathered)
    (hState : s1 = { s with gathered := s1.gathered }) (hCovers : Covers w promised seen s) :
    Covers w (promised ∪ tokensOf (joinVisit join behind edges)) seen s1 := by
  have hMore : seen ∪ promised ⊆ seen ∪ (promised ∪ tokensOf (joinVisit join behind edges)) :=
    Set.union_subset_union_right seen Set.subset_union_left
  have hTasks : s1.tasks = s.tasks := by rw [hState]
  have hFollowed : s1.followed = s.followed := by rw [hState]
  have hDecisions : s1.decisions = s.decisions := by rw [hState]
  constructor
  · intro token hToken node hFind
    have hHandled := hCovers.handled token hToken node hFind
    refine hHandled.transfer hMore ?_ (hFollowed ▸ List.Subset.refl _)
      (hDecisions ▸ List.Subset.refl _) ?_
    · rintro ⟨task, hTask, hKeys⟩
      exact ⟨task, hTasks ▸ hTask, hKeys⟩
    · rintro ⟨entry, hEntry, hName, hMem⟩
      rw [hGathered] at hEntry
      rcases List.mem_cons.mp hEntry with rfl | hRest
      · -- The token is held at this very join, and its way on is promised.
        refine Or.inl (crossedInto_join hJoin ?_ token ⟨hName.symm, hMem⟩)
        exact Set.Subset.trans Set.subset_union_right Set.subset_union_right
      · exact Or.inr ⟨entry, hRest, hName, hMem⟩
  · intro name hName a hAction visit hVisit
    rw [hFollowed] at hName
    exact Set.Subset.trans (hCovers.outcomes name hName a hAction visit hVisit) hMore

/-- Records are never taken back. -/
theorem Walked.decisions_subset {visits : List Visit} {s s' : State}
    (hWalked : Walked w options scope visits s s') : s.decisions ⊆ s'.decisions := by
  induction hWalked with
  | nil s => exact List.Subset.refl _
  | cons _ _ ihFirst ihRest => exact List.Subset.trans ihFirst ihRest
  | finish _ => exact List.Subset.refl _
  | kill _ hReceive => exact (Keeps.of_receive hReceive).decisions
  | start _ _ ih => exact ih
  | again _ hReceive _ => exact (Keeps.of_receive hReceive).decisions
  | action _ hReceive _ ih => exact List.Subset.trans (Keeps.of_receive hReceive).decisions ih
  | decision _ hResolve _ ih => exact List.Subset.trans (Keeps.of_resolve hResolve).1.decisions ih
  | fork _ _ _ hPaths hRelease _ ihPaths ihBehind =>
      obtain ⟨-, -, hState⟩ := release_of_gathers hPaths.gathers hRelease
      rw [hState] at ihBehind
      exact List.Subset.trans ihPaths ihBehind
  | join _ _ => exact List.Subset.refl _

/-- Following an action promises its outcomes. -/
theorem Covers.follow {name : String} {a : Action} {incoming : List Dependency}
    (hFind : Workflow.find? w.nodes name = some (.action a))
    (hReceive : s.receive scope (.action a) incoming = .ok s1)
    (hCovers : Covers w promised seen s) :
    Covers w (promised ∪ fun token => ∃ visit ∈ outcomeVisits name a, token ∈ tokensOf visit)
      (seen ∪ tokensOf (name, incoming)) { s1 with followed := name :: s1.followed } := by
  have hName : a.name = name := Workflow.name_of_find? hFind
  have hTasks := HasTask.of_receive hReceive
  rw [show (Owner.action a).name = name from hName] at hTasks
  have hKeeps := Keeps.of_receive hReceive
  have hKeepsFollowed : Keeps s { s1 with followed := name :: s1.followed } :=
    ⟨hKeeps.tasks, fun other hOther => List.mem_cons_of_mem name (hKeeps.followed hOther),
      hKeeps.decisions, hKeeps.gathered⟩
  constructor
  · intro token hToken node hNode
    rcases hToken with hOld | hNew
    · refine (hCovers.handled token hOld node hNode).mono ?_ hKeepsFollowed
      exact Set.union_subset_union Set.subset_union_left Set.subset_union_left
    · rw [hNew.1, hFind] at hNode
      cases hNode
      refine ⟨hTasks token hNew, ?_⟩
      rw [hNew.1]
      exact List.mem_cons_self
  · intro other hOther a' hAction visit hVisit token hToken
    rcases List.mem_cons.mp hOther with rfl | hEarlier
    · rw [hFind] at hAction
      cases hAction
      exact Or.inr (Or.inr ⟨visit, hVisit, hToken⟩)
    · rw [receive_followed hReceive] at hEarlier
      rcases hCovers.outcomes other hEarlier a' hAction visit hVisit hToken with hSeen | hPromised
      · exact Or.inl (Or.inl hSeen)
      · exact Or.inr (Or.inl hPromised)

/-- A walk sees the tokens of its visits and handles all it sees, whatever is promised. -/
theorem Walked.covers {visits : List Visit} {s s' : State}
    (hWalked : Walked w options scope visits s s') :
    ∀ promised seen, Covers w promised seen s →
      ∃ seen', seen ⊆ seen' ∧ (∀ visit ∈ visits, tokensOf visit ⊆ seen') ∧
        Covers w promised seen' s' := by
  -- Promises grow below an action or a fork, so the induction is for all of them.
  induction hWalked with
  | nil s =>
      intro promised seen hCovers
      exact ⟨seen, Set.Subset.refl _, fun visit hVisit => absurd hVisit List.not_mem_nil, hCovers⟩
  | cons _ _ ihFirst ihRest =>
      intro promised seen hCovers
      obtain ⟨seen1, hSeen1, hFirst, hCovers1⟩ := ihFirst promised seen hCovers
      obtain ⟨seen2, hSeen2, hRest, hCovers2⟩ := ihRest promised seen1 hCovers1
      refine ⟨seen2, Set.Subset.trans hSeen1 hSeen2, ?_, hCovers2⟩
      intro visit hVisit
      rcases List.mem_cons.mp hVisit with rfl | hLater
      · exact Set.Subset.trans (hFirst _ List.mem_cons_self) hSeen2
      · exact hRest visit hLater
  | finish hFind =>
      intro promised seen hCovers
      exact hCovers.see (Set.Subset.refl _) hFind fun token hToken => trivial
  | @kill name killName message incoming s s1 hFind hReceive =>
      intro promised seen hCovers
      have hName : killName = name := Workflow.name_of_find? hFind
      subst hName
      have hKept := hCovers.keep (Keeps.of_receive hReceive) (receive_followed hReceive)
      exact hKept.see (Set.Subset.refl _) hFind (HasTask.of_receive hReceive)
  | @start name target incoming s s1 hFind hNext ih =>
      intro promised seen hCovers
      obtain ⟨seen1, hSeen1, hTarget, hCovers1⟩ := ih promised seen hCovers
      have hKnown : tokensOf (target, incoming) ⊆ seen1 ∪ promised :=
        Set.Subset.trans (hTarget _ List.mem_cons_self) Set.subset_union_left
      exact hCovers1.see hSeen1 hFind (crossedInto_start hFind hKnown)
  | @again name a incoming s s1 hFind hReceive hFollowed =>
      intro promised seen hCovers
      have hName : a.name = name := Workflow.name_of_find? hFind
      have hTasks := HasTask.of_receive hReceive
      rw [show (Owner.action a).name = name from hName] at hTasks
      have hKept := hCovers.keep (Keeps.of_receive hReceive) (receive_followed hReceive)
      refine hKept.see (Set.Subset.refl _) hFind ?_
      intro token hToken
      refine ⟨hTasks token hToken, ?_⟩
      rw [hToken.1]
      exact hFollowed
  | @action name a incoming s s1 s2 hFind hReceive hOutcomes ih =>
      intro promised seen hCovers
      -- The outcomes are promised before the walk goes on, since it may meet the action again.
      obtain ⟨seen1, hSeen1, hVisits, hCovers1⟩ := ih _ _ (hCovers.follow hFind hReceive)
      refine ⟨seen1, Set.Subset.trans Set.subset_union_left hSeen1, ?_, hCovers1.keepPromise ?_⟩
      · intro visit hVisit
        rw [List.mem_singleton.mp hVisit]
        exact Set.Subset.trans Set.subset_union_right hSeen1
      · rintro token ⟨visit, hVisit, hToken⟩
        exact hVisits visit hVisit hToken
  | @decision name d incoming s s1 s2 hFind hResolve hBranches ih =>
      intro promised seen hCovers
      obtain ⟨hKeeps, hFollowed, record, hRecord, hRecordName⟩ := Keeps.of_resolve hResolve
      obtain ⟨seen1, hSeen1, hVisits, hCovers1⟩ := ih promised seen (hCovers.keep hKeeps hFollowed)
      have hName : d.name = name := Workflow.name_of_find? hFind
      have hKnown : ∀ visit ∈ branchVisits d incoming, tokensOf visit ⊆ seen1 ∪ promised :=
        fun visit hVisit => Set.Subset.trans (hVisits visit hVisit) Set.subset_union_left
      refine hCovers1.see hSeen1 hFind ?_
      intro token hToken
      refine ⟨⟨record, hBranches.decisions_subset hRecord, ?_⟩,
        crossedInto_decision hFind hKnown token hToken⟩
      rw [hRecordName, hName, hToken.1]
  | @fork name join joinName behind f incoming edges s s1 s2 s3 hFind hClosing hJoin hPaths hRelease
      hBehind ihPaths ihBehind =>
      intro promised seen hCovers
      have hOpened : Keeps s { s with gathered := (join, []) :: s.gathered } :=
        ⟨(Keeps.refl s).tasks, List.Subset.refl _, List.Subset.refl _,
          fun entry hEntry => ⟨entry, List.mem_cons_of_mem _ hEntry, rfl, List.Subset.refl _⟩⟩
      obtain ⟨seen1, hSeen1, hVisits, hCovers1⟩ := ihPaths promised seen (hCovers.keep hOpened rfl)
      -- What the paths left at the join is promised to the node behind it.
      obtain ⟨hGathered, -, hState⟩ := release_of_gathers hPaths.gathers hRelease
      obtain ⟨seen2, hSeen2, hLast, hCovers2⟩ :=
        ihBehind _ _ (hCovers1.release hJoin hGathered hState)
      have hDone := hCovers2.keepPromise (hLast _ List.mem_cons_self)
      have hKnown : ∀ path ∈ f.paths, tokensOf (path, incoming) ⊆ seen2 ∪ promised := by
        intro path hPath
        have hSeen := hVisits (path, incoming) (List.mem_map.mpr ⟨path, hPath, rfl⟩)
        exact Set.Subset.trans (Set.Subset.trans hSeen hSeen2) Set.subset_union_left
      exact hDone.see (Set.Subset.trans hSeen1 hSeen2) hFind (crossedInto_fork hFind hKnown)
  | @join name joinName target incoming s gathered hFind hGather =>
      intro promised seen hCovers
      have hGathers := gather_gathers _ _ hGather
      have hKeeps : Keeps s { s with gathered } :=
        ⟨(Keeps.refl s).tasks, List.Subset.refl _, List.Subset.refl _,
          fun entry hEntry => hGathers.exists_mem hEntry⟩
      obtain ⟨entry, hEntry, hName, hMem⟩ := exists_entry_of_gather _ _ hGather
      refine (hCovers.keep hKeeps rfl).see (Set.Subset.refl _) hFind ?_
      intro token hToken
      refine Or.inr ⟨entry, hEntry, hName.trans hToken.1.symm, ?_⟩
      exact fun d hd => hMem (hToken.2 d hd)

/-- Every token seen has been handled, with nothing promised and nothing held: what has been seen is
closed under the transitions of the workflow. -/
structure Complete (w : Workflow) (seen : Set Token) (s : State) : Prop where
  handled : ∀ token ∈ seen, ∀ node, Workflow.find? w.nodes token.1 = some node →
    Handled w seen s token node
  crossed : ∀ token ∈ seen, CrossedInto w seen token
  outcomes : ∀ token ∈ seen, ∀ a, Workflow.find? w.nodes token.1 = some (.action a) →
    ∀ visit ∈ outcomeVisits token.1 a, tokensOf visit ⊆ seen

theorem Covers.complete (hCovers : Covers w ∅ seen s) (hClosed : s.gathered = []) :
    Complete w seen s := by
  obtain ⟨hHandled, hOutcomes⟩ := hCovers
  simp only [Set.union_empty] at hHandled hOutcomes
  refine ⟨hHandled, ?_, ?_⟩
  · intro token hToken crossing target hCross
    obtain ⟨node, hFind⟩ := hCross.leads.exists_find?
    have hNode := hHandled token hToken node hFind
    have hKind := hCross.inversion hFind
    cases node with
    | start next => exact hNode crossing target hCross
    | fork f => exact hNode crossing target hCross
    | decision d => exact hNode.2 crossing target hCross
    | join joinName next =>
        rcases hNode with hCrossed | ⟨entry, hEntry, -⟩
        · exact hCrossed crossing target hCross
        · rw [hClosed] at hEntry
          exact absurd hEntry List.not_mem_nil
    | action a => exact absurd hKind id
    | kill killName message => exact absurd hKind id
    | finish endName => exact absurd hKind id
  · intro token hToken a hFind
    exact hOutcomes token.1 (hHandled token hToken _ hFind).2 a hFind

/-- Every node that can be reached has been seen. -/
theorem Complete.reachable {d? : Option Dependency} {name : String} (hComplete : Complete w seen s)
    (hStart : (Node.startName, d?) ∈ seen) (hName : Workflow.Reachable w.nodes name) :
    ∃ d?, (name, d?) ∈ seen := by
  induction hName with
  | refl => exact ⟨_, hStart⟩
  | @tail before after _ hLeads ih =>
      obtain ⟨d?, hToken⟩ := ih
      rcases Workflow.Leads.crosses_or_outcome hLeads with
        ⟨crossing, hCrosses⟩ | ⟨a, hFind, hTarget⟩
      · exact ⟨_, hComplete.crossed _ hToken crossing after hCrosses⟩
      · -- The outcome starts a new trace; that its node is seen needs no dependency.
        have hSeen := hComplete.outcomes _ hToken a hFind
        rcases hTarget with rfl | rfl
        · exact ⟨none, hSeen _ List.mem_cons_self ⟨rfl, fun d hd => nomatch hd⟩⟩
        · exact ⟨none, hSeen _ (List.mem_cons_of_mem _ List.mem_cons_self)
            ⟨rfl, fun d hd => nomatch hd⟩⟩

/-- The end of every control path has been seen with the trace of the path. -/
theorem Complete.controlPath {origin : Origin} {crossings : List Crossing} {name : String}
    (hComplete : Complete w seen s)
    (hStart : (Node.startName, some ⟨none, .success, [], none⟩) ∈ seen)
    (hPath : w.ControlPath origin crossings name) :
    (name, some (Crossing.trace origin crossings)) ∈ seen := by
  induction hPath with
  | start => exact hStart
  | @ok action a hAction hFind =>
      obtain ⟨d?, hToken⟩ := hComplete.reachable hStart hAction
      apply hComplete.outcomes _ hToken a hFind _ List.mem_cons_self
      exact ⟨rfl, fun d hd => List.mem_singleton.mpr (Option.some.inj hd).symm⟩
  | @error action a hAction hFind =>
      obtain ⟨d?, hToken⟩ := hComplete.reachable hStart hAction
      apply hComplete.outcomes _ hToken a hFind _ (List.mem_cons_of_mem _ List.mem_cons_self)
      exact ⟨rfl, fun d hd => List.mem_singleton.mpr (Option.some.inj hd).symm⟩
  | cross _ hCrosses ih =>
      rw [Crossing.trace_concat]
      exact hComplete.crossed _ ih _ _ hCrosses

/-- A walk from the start ends with the start seen and nothing left open. -/
theorem Walked.complete {s : State}
    (hWalked : Walked w options scope [(Node.startName, [⟨none, .success, [], none⟩])] {} s) :
    ∃ seen, Complete w seen s ∧ (Node.startName, some ⟨none, .success, [], none⟩) ∈ seen := by
  have hEmpty : Covers w ∅ ∅ {} :=
    ⟨fun token hToken => absurd hToken (Set.notMem_empty token),
      fun name hName => absurd hName List.not_mem_nil⟩
  obtain ⟨seen, -, hVisit, hCovers⟩ := hWalked.covers ∅ ∅ hEmpty
  -- The forks that are open at the end are those at the beginning: none.
  have hClosed : s.gathered = [] := List.forall₂_nil_left_iff.mp hWalked.gathers
  refine ⟨seen, hCovers.complete hClosed, hVisit _ List.mem_cons_self ⟨rfl, ?_⟩⟩
  exact fun d hd => List.mem_singleton.mpr (Option.some.inj hd).symm

end

end Walk
end WorkflowDag
