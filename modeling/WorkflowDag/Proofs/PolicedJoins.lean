import Mathlib.Data.Set.Insert
import WorkflowDag.Proofs.OutsideJoins

/-!
# Entries from outside that a walk notices

Each action is walked on from once only, where it is come to first.  A join that is entered from
outside, by a path with no action that also lies behind one of its forks, is refused whatever the
order of the walk (`not_enteredClearly_of_ofWorkflow`).  An action that lies both outside and inside
may have been walked on from inside first, and then an entry through it goes unnoticed.

`Polices` is the invariant: the nodes come to outside of the forks of the join, and what has been
walked on from them.  Its step lemmas say what seeing a node, following an action and closing a fork
do to it, `Walked.polices` is the induction over a walk.
-/

namespace WorkflowDag

namespace Workflow

/-- A transition as `Avoids` has it, out of no action that lies behind a fork of the join. -/
def AvoidsClearly (w : Workflow) (join name target : String) : Prop :=
  w.Avoids join name target ∧
    ((∃ a, find? w.nodes name = some (.action a)) → ¬w.Inside join name)

/-- A path from the start enters the join and has passed none of its forks, nor any action that lies
behind one of them. -/
def EnteredClearly (w : Workflow) (join : String) : Prop :=
  isJoin w.nodes join = true ∧ Relation.ReflTransGen (w.AvoidsClearly join) Node.startName join

end Workflow

namespace Walk

/-- All transitions of the node lead to known nodes. -/
def LeadsInto (w : Workflow) (known : Set String) (name : String) : Prop :=
  ∀ target, Workflow.Leads w.nodes name target → target ∈ known

/-- The nodes that have been come to while no fork of the join was being walked: the join is none of
them, and all have been walked on from up to what is promised.  A fork of the join is left to
itself, a join whose fork is being walked still holds what has come to it, and an action has been
followed here or behind a fork of the join. -/
structure Polices (w : Workflow) (join : String) (promised seen : Set String) (s : State) :
    Prop where
  apart : join ∉ seen
  handled : ∀ name ∈ seen, w.Opens join name ∨ name ∈ s.followed ∨
    name ∈ s.gathered.map Prod.fst ∨ LeadsInto w (seen ∪ promised) name
  outcomes : ∀ name ∈ s.followed, (∃ a, Workflow.find? w.nodes name = some (.action a)) ∧
    (w.Inside join name ∨ LeadsInto w (seen ∪ promised) name)

section Policing

variable {w : Workflow} {options : TaskOptions} {scope : Scope} {join name : String}
  {promised seen : Set String} {s s1 : State}

theorem LeadsInto.mono {known more : Set String} (hMore : known ⊆ more)
    (hKnown : LeadsInto w known name) : LeadsInto w more name :=
  fun target hLeads => hMore (hKnown target hLeads)

/-- Further nodes may be known, further actions followed behind a fork of the join, and further
joins held. -/
theorem Polices.grow {promised' : Set String} (hPolices : Polices w join promised seen s)
    (hMore : seen ∪ promised ⊆ seen ∪ promised')
    (hGathered : s.gathered.map Prod.fst ⊆ s1.gathered.map Prod.fst)
    (hKept : s.followed ⊆ s1.followed)
    (hNew : ∀ name ∈ s1.followed, name ∈ s.followed ∨
      (∃ a, Workflow.find? w.nodes name = some (.action a)) ∧ w.Inside join name) :
    Polices w join promised' seen s1 where
  apart := hPolices.apart
  handled := by
    intro name hName
    rcases hPolices.handled name hName with hOpens | hFollowed | hHeld | hKnown
    · exact Or.inl hOpens
    · exact Or.inr (Or.inl (hKept hFollowed))
    · exact Or.inr (Or.inr (Or.inl (hGathered hHeld)))
    · exact Or.inr (Or.inr (Or.inr (hKnown.mono hMore)))
  outcomes := by
    intro name hName
    rcases hNew name hName with hOld | ⟨hAction, hInside⟩
    · obtain ⟨hAction, hOutcomes⟩ := hPolices.outcomes name hOld
      exact ⟨hAction, hOutcomes.imp_right (LeadsInto.mono hMore)⟩
    · exact ⟨hAction, Or.inl hInside⟩

/-- The invariant only looks at the actions followed and the joins held. -/
theorem Polices.keep (hPolices : Polices w join promised seen s)
    (hGathered : s1.gathered.map Prod.fst = s.gathered.map Prod.fst)
    (hFollowed : s1.followed = s.followed) : Polices w join promised seen s1 :=
  hPolices.grow (Set.Subset.refl _) (hGathered ▸ List.Subset.refl _)
    (hFollowed ▸ List.Subset.refl _) fun _ hName => Or.inl (hFollowed ▸ hName)

/-- A node is seen once it has been walked on from. -/
theorem Polices.see {before : Set String} {incoming : List Dependency}
    (hPolices : Polices w join promised seen s) (hBefore : before ⊆ seen) (hName : name ≠ join)
    (hHandled : w.Opens join name ∨ name ∈ s.followed ∨ name ∈ s.gathered.map Prod.fst ∨
      LeadsInto w (seen ∪ promised) name) :
    ∃ seen', before ⊆ seen' ∧ (∀ visit ∈ [((name, incoming) : Visit)], visit.1 ∈ seen') ∧
      Polices w join promised seen' s := by
  have hMore : seen ∪ promised ⊆ insert name seen ∪ promised :=
    Set.union_subset_union_left promised (Set.subset_insert name seen)
  refine ⟨insert name seen, Set.Subset.trans hBefore (Set.subset_insert name seen), ?_, ?_, ?_, ?_⟩
  · intro visit hVisit
    rw [List.mem_singleton.mp hVisit]
    exact Set.mem_insert name seen
  · rintro (hSame | hSeen)
    · exact hName hSame.symm
    · exact hPolices.apart hSeen
  · intro other hOther
    have hOld : w.Opens join other ∨ other ∈ s.followed ∨ other ∈ s.gathered.map Prod.fst ∨
        LeadsInto w (seen ∪ promised) other := by
      rcases hOther with rfl | hSeen
      · exact hHandled
      · exact hPolices.handled other hSeen
    exact hOld.imp_right (Or.imp_right (Or.imp_right (LeadsInto.mono hMore)))
  · intro other hOther
    obtain ⟨hAction, hOutcomes⟩ := hPolices.outcomes other hOther
    exact ⟨hAction, hOutcomes.imp_right (LeadsInto.mono hMore)⟩

/-- Promises that have been kept can be dropped. -/
theorem Polices.keepPromise {kept : Set String} (hPolices : Polices w join (promised ∪ kept) seen s)
    (hKept : kept ⊆ seen) : Polices w join promised seen s := by
  refine hPolices.grow ?_ (List.Subset.refl _) (List.Subset.refl _) fun _ hName => Or.inl hName
  rintro name (hSeen | hPromised | hName)
  · exact Or.inl hSeen
  · exact Or.inr hPromised
  · exact Or.inl (hKept hName)

/-- Following an action promises what its transitions lead to. -/
theorem Polices.follow {a : Action} (hFind : Workflow.find? w.nodes name = some (.action a))
    (hName : name ≠ join) (hPolices : Polices w join promised seen s) :
    Polices w join (promised ∪ {target | Workflow.Leads w.nodes name target}) (insert name seen)
      { s with followed := name :: s.followed } := by
  have hMore : seen ∪ promised ⊆
      insert name seen ∪ (promised ∪ {target | Workflow.Leads w.nodes name target}) :=
    Set.union_subset_union (Set.subset_insert name seen) Set.subset_union_left
  refine ⟨?_, ?_, ?_⟩
  · rintro (hSame | hSeen)
    · exact hName hSame.symm
    · exact hPolices.apart hSeen
  · intro other hOther
    rcases hOther with rfl | hSeen
    · exact Or.inr (Or.inl List.mem_cons_self)
    · rcases hPolices.handled other hSeen with hOpens | hFollowed | hHeld | hKnown
      · exact Or.inl hOpens
      · exact Or.inr (Or.inl (List.mem_cons_of_mem name hFollowed))
      · exact Or.inr (Or.inr (Or.inl hHeld))
      · exact Or.inr (Or.inr (Or.inr (hKnown.mono hMore)))
  · intro other hOther
    rcases List.mem_cons.mp hOther with rfl | hEarlier
    · exact ⟨⟨a, hFind⟩, Or.inr fun target hLeads => Or.inr (Or.inr hLeads)⟩
    · obtain ⟨hAction, hOutcomes⟩ := hPolices.outcomes other hEarlier
      exact ⟨hAction, hOutcomes.imp_right (LeadsInto.mono hMore)⟩

/-- What a join has held goes on as a promise once its fork is closed. -/
theorem Polices.release {own joinName behind : String} {edges : List Dependency}
    (hJoin : Workflow.find? w.nodes own = some (.join joinName behind))
    (hGathered : s.gathered = (own, edges) :: s1.gathered)
    (hState : s1 = { s with gathered := s1.gathered }) (hPolices : Polices w join promised seen s) :
    Polices w join (promised ∪ {behind}) seen s1 := by
  have hMore : seen ∪ promised ⊆ seen ∪ (promised ∪ {behind}) :=
    Set.union_subset_union_right seen Set.subset_union_left
  have hFollowed : s1.followed = s.followed := by rw [hState]
  refine ⟨hPolices.apart, ?_, ?_⟩
  · intro name hName
    rcases hPolices.handled name hName with hOpens | hMem | hHeld | hKnown
    · exact Or.inl hOpens
    · exact Or.inr (Or.inl (hFollowed ▸ hMem))
    · rw [hGathered, List.map_cons] at hHeld
      rcases List.mem_cons.mp hHeld with rfl | hOuter
      · -- The one transition of the join leads to what is promised.
        refine Or.inr (Or.inr (Or.inr ?_))
        intro target hLeads
        obtain ⟨t, hTransition, rfl⟩ := (Workflow.leads_iff hJoin).mp hLeads
        rw [List.mem_singleton.mp hTransition]
        exact Or.inr (Or.inr rfl)
      · exact Or.inr (Or.inr (Or.inl hOuter))
    · exact Or.inr (Or.inr (Or.inr (hKnown.mono hMore)))
  · intro name hName
    rw [hFollowed] at hName
    obtain ⟨hAction, hOutcomes⟩ := hPolices.outcomes name hName
    exact ⟨hAction, hOutcomes.imp_right (LeadsInto.mono hMore)⟩

/-- A node without transitions leads nowhere. -/
theorem leadsInto_of_none {node : Node} (hFind : Workflow.find? w.nodes name = some node)
    (hNone : node.transitions = []) {known : Set String} : LeadsInto w known name := by
  intro target hLeads
  obtain ⟨t, hTransition, -⟩ := (Workflow.leads_iff hFind).mp hLeads
  rw [hNone] at hTransition
  exact absurd hTransition List.not_mem_nil

/-- What an action leads to is visited. -/
theorem leadsInto_outcomes {a : Action} (hFind : Workflow.find? w.nodes name = some (.action a))
    {known : Set String} (hVisits : ∀ visit ∈ outcomeVisits name a, visit.1 ∈ known) :
    LeadsInto w known name := by
  intro target hLeads
  obtain ⟨t, hTransition, rfl⟩ := (Workflow.leads_iff hFind).mp hLeads
  rcases List.mem_cons.mp hTransition with rfl | hLast
  · exact hVisits _ List.mem_cons_self
  · rw [List.mem_singleton.mp hLast]
    exact hVisits _ (List.mem_cons_of_mem _ List.mem_cons_self)

theorem leadsInto_branches {d : Decision} {incoming : List Dependency}
    (hFind : Workflow.find? w.nodes name = some (.decision d)) {known : Set String}
    (hVisits : ∀ visit ∈ branchVisits d incoming, visit.1 ∈ known) : LeadsInto w known name := by
  intro target hLeads
  obtain ⟨t, hTransition, rfl⟩ := (Workflow.leads_iff hFind).mp hLeads
  have hBranch : ∃ branch ∈ branchesOf d, branch.2 = t.target := by
    rcases List.mem_append.mp hTransition with hCase | hFallback
    · obtain ⟨c, hMem, rfl⟩ := List.mem_map.mp hCase
      obtain ⟨index, hIndex, rfl⟩ := List.getElem_of_mem hMem
      exact ⟨_, List.mem_append_left _ (List.mem_mapIdx.mpr ⟨index, hIndex, rfl⟩), rfl⟩
    · rw [List.mem_singleton.mp hFallback]
      exact ⟨_, List.mem_append_right _ (List.mem_singleton.mpr rfl), rfl⟩
  obtain ⟨branch, hMem, hTarget⟩ := hBranch
  exact hTarget ▸ hVisits _ (List.mem_map.mpr ⟨branch, hMem, rfl⟩)

theorem leadsInto_paths {f : Fork} {incoming : List Dependency}
    (hFind : Workflow.find? w.nodes name = some (.fork f)) {known : Set String}
    (hVisits : ∀ visit ∈ f.paths.map fun path => ((path, incoming) : Visit), visit.1 ∈ known) :
    LeadsInto w known name := by
  intro target hLeads
  obtain ⟨t, hTransition, rfl⟩ := (Workflow.leads_iff hFind).mp hLeads
  obtain ⟨path, hPath, rfl⟩ := List.mem_map.mp hTransition
  exact hVisits _ (List.mem_map.mpr ⟨path, hPath, rfl⟩)

/-- What is visited from nodes of a kind that transitions do not leave: the actions followed on the
way are of this kind. -/
theorem Walked.followed_of_closed (hNested : Workflow.Nested w.nodes w.closingJoins)
    (kind : String → Prop)
    (hClosed : ∀ name target, kind name → Workflow.Leads w.nodes name target → kind target)
    {visits : List Visit} {s s' : State} (hWalked : Walked w options scope visits s s')
    (hVisits : ∀ visit ∈ visits, kind visit.1) :
    s.followed ⊆ s'.followed ∧ ∀ name ∈ s'.followed, name ∈ s.followed ∨
      (∃ a, Workflow.find? w.nodes name = some (.action a)) ∧ kind name := by
  have hFar : ∀ {name target : String}, kind name →
      Relation.TransGen (Workflow.Leads w.nodes) name target → kind target := by
    intro name target hName hLeads
    induction hLeads with
    | single hLeads => exact hClosed _ _ hName hLeads
    | tail _ hLeads ih => exact hClosed _ _ ih hLeads
  induction hWalked with
  | nil s => exact ⟨List.Subset.refl _, fun _ hName => Or.inl hName⟩
  | cons _ _ ihFirst ihRest =>
      obtain ⟨hKept, hNew⟩ := ihFirst fun visit hVisit =>
        hVisits visit (List.mem_singleton.mp hVisit ▸ List.mem_cons_self)
      obtain ⟨hKept', hNew'⟩ := ihRest fun visit hVisit =>
        hVisits visit (List.mem_cons_of_mem _ hVisit)
      refine ⟨List.Subset.trans hKept hKept', ?_⟩
      intro name hName
      rcases hNew' name hName with hEarlier | hLater
      · exact hNew name hEarlier
      · exact Or.inr hLater
  | finish _ => exact ⟨List.Subset.refl _, fun _ hName => Or.inl hName⟩
  | kill _ hReceive =>
      rw [receive_followed hReceive]
      exact ⟨List.Subset.refl _, fun _ hName => Or.inl hName⟩
  | @start name target incoming s s1 hFind _ ih =>
      refine ih ?_
      intro visit hVisit
      rw [List.mem_singleton.mp hVisit]
      exact hClosed name target (hVisits _ List.mem_cons_self) (Workflow.Crosses.start hFind).leads
  | again _ hReceive _ =>
      rw [receive_followed hReceive]
      exact ⟨List.Subset.refl _, fun _ hName => Or.inl hName⟩
  | @action name a incoming s s1 s2 hFind hReceive _ ih =>
      have hName : kind name := hVisits _ List.mem_cons_self
      obtain ⟨hKept, hNew⟩ := ih fun visit hVisit => by
        rcases List.mem_cons.mp hVisit with rfl | hLast
        · exact hClosed _ _ hName (Workflow.leads_ok hFind)
        · rw [List.mem_singleton.mp hLast]
          exact hClosed _ _ hName (Workflow.leads_error hFind)
      rw [← receive_followed hReceive]
      refine ⟨fun other hOther => hKept (List.mem_cons_of_mem name hOther), ?_⟩
      intro other hOther
      rcases hNew other hOther with hEarlier | hLater
      · rcases List.mem_cons.mp hEarlier with rfl | hOld
        · exact Or.inr ⟨⟨a, hFind⟩, hName⟩
        · exact Or.inl hOld
      · exact Or.inr hLater
  | @decision name d incoming s s1 s2 hFind hResolve _ ih =>
      obtain ⟨decisions, -, rfl⟩ := exists_records_of_resolve hResolve
      refine ih ?_
      intro visit hVisit
      obtain ⟨branch, hBranch, rfl⟩ := List.mem_map.mp hVisit
      obtain ⟨caseIndex, guard, -, hCross⟩ := crosses_of_mem_branchesOf hFind hBranch
      exact hClosed _ _ (hVisits _ List.mem_cons_self) hCross.leads
  | @fork name own joinName behind f incoming edges s s1 s2 s3 hFind hClosing hJoin hPaths hRelease
      _ ihPaths ihBehind =>
      have hName : kind name := hVisits _ List.mem_cons_self
      obtain ⟨-, -, hState⟩ := release_of_gathers hPaths.gathers hRelease
      have hFollowed : s2.followed = s1.followed := by rw [hState]
      obtain ⟨hKept, hNew⟩ := ihPaths fun visit hVisit => by
        obtain ⟨path, hPath, rfl⟩ := List.mem_map.mp hVisit
        exact hClosed _ _ hName (Workflow.leads_path hFind hPath)
      obtain ⟨hKept', hNew'⟩ := ihBehind fun visit hVisit => by
        rw [List.mem_singleton.mp hVisit]
        exact hFar hName (hNested.leads_behind hClosing hJoin)
      rw [hFollowed] at hKept' hNew'
      refine ⟨List.Subset.trans hKept hKept', ?_⟩
      intro other hOther
      rcases hNew' other hOther with hEarlier | hLater
      · exact hNew other hEarlier
      · exact Or.inr hLater
  | join _ _ => exact ⟨List.Subset.refl _, fun _ hName => Or.inl hName⟩

/-- A walk that begins outside of the forks of a join sees its visits and is policed on the way, up
to what is promised. -/
theorem Walked.polices (hNested : Workflow.Nested w.nodes w.closingJoins)
    (hJoin : Workflow.isJoin w.nodes join = true) {visits : List Visit} {s s' : State}
    (hWalked : Walked w options scope visits s s') :
    ∀ promised seen, (∀ visit ∈ visits, Workflow.Reachable w.nodes visit.1) →
      join ∉ s.gathered.map Prod.fst → Polices w join promised seen s →
      ∃ seen', seen ⊆ seen' ∧ (∀ visit ∈ visits, visit.1 ∈ seen') ∧
        Polices w join promised seen' s' := by
  obtain ⟨joinName, behind, hAtJoin⟩ := Workflow.isJoin_iff.mp hJoin
  have hOther : ∀ {name : String} {node : Node}, Workflow.find? w.nodes name = some node →
      node.kind ≠ .join → name ≠ join := by
    rintro name node hFind hKind rfl
    cases hFind.symm.trans hAtJoin
    exact hKind rfl
  induction hWalked with
  | nil s =>
      intro promised seen _ _ hPolices
      exact ⟨seen, Set.Subset.refl _, fun _ hVisit => absurd hVisit List.not_mem_nil, hPolices⟩
  | cons hFirst _ ihFirst ihRest =>
      intro promised seen hReachable hClosed hPolices
      obtain ⟨seen1, hSeen1, hVisit1, hPolices1⟩ := ihFirst promised seen
        (fun visit hVisit =>
          hReachable visit (List.mem_singleton.mp hVisit ▸ List.mem_cons_self)) hClosed hPolices
      rw [← hFirst.gathers.map_fst] at hClosed
      obtain ⟨seen2, hSeen2, hVisits2, hPolices2⟩ := ihRest promised seen1
        (fun visit hVisit => hReachable visit (List.mem_cons_of_mem _ hVisit)) hClosed hPolices1
      refine ⟨seen2, Set.Subset.trans hSeen1 hSeen2, ?_, hPolices2⟩
      intro visit hVisit
      rcases List.mem_cons.mp hVisit with rfl | hLater
      · exact hSeen2 (hVisit1 _ List.mem_cons_self)
      · exact hVisits2 visit hLater
  | finish hFind =>
      intro promised seen _ _ hPolices
      exact hPolices.see (Set.Subset.refl _) (hOther hFind (by simp [Node.kind]))
        (Or.inr (Or.inr (Or.inr (leadsInto_of_none hFind rfl))))
  | kill hFind hReceive =>
      intro promised seen _ _ hPolices
      have hKept := hPolices.keep (by rw [receive_gathered hReceive]) (receive_followed hReceive)
      exact hKept.see (Set.Subset.refl _) (hOther hFind (by simp [Node.kind]))
        (Or.inr (Or.inr (Or.inr (leadsInto_of_none hFind rfl))))
  | @start name target incoming s s1 hFind hNext ih =>
      intro promised seen hReachable hClosed hPolices
      have hLeads := (Workflow.Crosses.start (w := w) hFind).leads
      obtain ⟨seen1, hSeen1, hVisits, hPolices1⟩ := ih promised seen
        (fun visit hVisit => List.mem_singleton.mp hVisit ▸
          (hReachable _ List.mem_cons_self).step hLeads) hClosed hPolices
      refine hPolices1.see hSeen1 (hOther hFind (by simp [Node.kind])) ?_
      refine Or.inr (Or.inr (Or.inr ?_))
      intro other hOther
      obtain ⟨t, hTransition, rfl⟩ := (Workflow.leads_iff hFind).mp hOther
      rw [List.mem_singleton.mp hTransition]
      exact Or.inl (hVisits _ List.mem_cons_self)
  | again hFind hReceive hFollowed =>
      intro promised seen _ _ hPolices
      have hKept := hPolices.keep (by rw [receive_gathered hReceive]) (receive_followed hReceive)
      exact hKept.see (Set.Subset.refl _) (hOther hFind (by simp [Node.kind]))
        (Or.inr (Or.inl hFollowed))
  | @action name a incoming s s1 s2 hFind hReceive hOutcomes ih =>
      intro promised seen hReachable hClosed hPolices
      have hName := hReachable _ List.mem_cons_self
      have hKept := hPolices.keep (by rw [receive_gathered hReceive]) (receive_followed hReceive)
      -- The outcomes are promised before the walk goes on, since it may meet the action again.
      have hFollowed := hKept.follow hFind (hOther hFind (by simp [Node.kind]))
      rw [← receive_gathered hReceive] at hClosed
      obtain ⟨seen1, hSeen1, hVisits, hPolices1⟩ := ih _ _ (fun visit hVisit =>
        (outcomeVisits_sound hFind hName visit hVisit).1) hClosed hFollowed
      refine ⟨seen1, Set.Subset.trans (Set.subset_insert name seen) hSeen1, ?_,
        hPolices1.keepPromise (leadsInto_outcomes hFind hVisits)⟩
      intro visit hVisit
      rw [List.mem_singleton.mp hVisit]
      exact hSeen1 (Set.mem_insert name seen)
  | @decision name d incoming s s1 s2 hFind hResolve hBranches ih =>
      intro promised seen hReachable hClosed hPolices
      have hName := hReachable _ List.mem_cons_self
      obtain ⟨decisions, -, rfl⟩ := exists_records_of_resolve hResolve
      obtain ⟨seen1, hSeen1, hVisits, hPolices1⟩ := ih promised seen (fun visit hVisit => by
        obtain ⟨branch, hBranch, rfl⟩ := List.mem_map.mp hVisit
        obtain ⟨caseIndex, guard, -, hCross⟩ := crosses_of_mem_branchesOf hFind hBranch
        exact hName.step hCross.leads) hClosed (hPolices.keep rfl rfl)
      refine hPolices1.see hSeen1 (hOther hFind (by simp [Node.kind])) ?_
      exact Or.inr (Or.inr (Or.inr
        ((leadsInto_branches hFind hVisits).mono Set.subset_union_left)))
  | @fork name own joinName behind f incoming edges s s1 s2 s3 hFind hClosing hOwn hPaths hRelease
      hBehind ihPaths ihBehind =>
      intro promised seen hReachable hClosed hPolices
      have hName := hReachable _ List.mem_cons_self
      have hNext : Workflow.Reachable w.nodes behind :=
        hName.trans (hNested.leads_behind hClosing hOwn)
      have hNextVisit : ∀ visit ∈ [joinVisit own behind edges],
          Workflow.Reachable w.nodes visit.1 :=
        fun visit hVisit => List.mem_singleton.mp hVisit ▸ hNext
      have hPathLeads : ∀ visit ∈ f.paths.map fun path => ((path, incoming) : Visit),
          Workflow.Leads w.nodes name visit.1 := by
        intro visit hVisit
        obtain ⟨path, hPath, rfl⟩ := List.mem_map.mp hVisit
        exact Workflow.leads_path hFind hPath
      obtain ⟨hGathered, hRest, hState⟩ := release_of_gathers hPaths.gathers hRelease
      have hClosed2 : join ∉ s2.gathered.map Prod.fst := by
        rw [hRest.map_fst]
        exact hClosed
      have hFollowed : s2.followed = s1.followed := by rw [hState]
      by_cases hSame : own = join
      · -- Behind its own fork the join may be come to, and actions followed there lie inside.
        subst hSame
        obtain ⟨hKept, hNew⟩ := hPaths.followed_of_closed hNested (w.Inside own)
          (fun _ _ hInside hLeads => hInside.step hLeads)
          (fun visit hVisit => ⟨name, hName, hClosing, .single (hPathLeads visit hVisit)⟩)
        rw [← hFollowed] at hKept hNew
        have hPolices2 : Polices w own promised seen s2 :=
          hPolices.grow (Set.Subset.refl _) (hRest.map_fst ▸ List.Subset.refl _) hKept hNew
        obtain ⟨seen3, hSeen3, -, hPolices3⟩ :=
          ihBehind promised seen hNextVisit hClosed2 hPolices2
        exact hPolices3.see hSeen3 (hOther hFind (by simp [Node.kind])) (Or.inl hClosing)
      · -- Behind another fork the walk is still outside; what its own join holds is walked on from
        -- only once the fork is closed, so it is promised until then.
        have hOpened : join ∉ ((own, ([] : List Dependency)) :: s.gathered).map Prod.fst := by
          rw [List.map_cons, List.mem_cons, not_or]
          exact ⟨fun hEq => hSame hEq.symm, hClosed⟩
        have hPolices0 : Polices w join promised seen
            { s with gathered := (own, []) :: s.gathered } :=
          hPolices.grow (Set.Subset.refl _) (List.subset_cons_self _ _) (List.Subset.refl _)
            fun _ hMem => Or.inl hMem
        obtain ⟨seen1, hSeen1, hVisits, hPolices1⟩ := ihPaths promised seen
          (fun visit hVisit => hName.step (hPathLeads visit hVisit)) hOpened hPolices0
        obtain ⟨seen2, hSeen2, hLast, hPolices2⟩ := ihBehind _ _ hNextVisit hClosed2
          (hPolices1.release hOwn hGathered hState)
        have hDone : Polices w join promised seen2 s3 := by
          refine hPolices2.keepPromise ?_
          rintro _ rfl
          exact hLast _ List.mem_cons_self
        refine hDone.see (Set.Subset.trans hSeen1 hSeen2) (hOther hFind (by simp [Node.kind])) ?_
        exact Or.inr (Or.inr (Or.inr
          ((leadsInto_paths hFind hVisits).mono fun _ hMem => Or.inl (hSeen2 hMem))))
  | @join name joinName target incoming s gathered hFind hGather =>
      intro promised seen _ hClosed hPolices
      -- Only a join whose fork is being walked takes what comes, and this one is not among those.
      have hNames := (gather_gathers _ _ hGather).map_fst
      have hHeld : name ∈ gathered.map Prod.fst := by
        obtain ⟨entry, hEntry, hName, -⟩ := exists_entry_of_gather _ _ hGather
        exact List.mem_map.mpr ⟨entry, hEntry, hName⟩
      have hKept : Polices w join promised seen { s with gathered } := hPolices.keep hNames rfl
      refine hKept.see (Set.Subset.refl _) ?_ (Or.inr (Or.inr (Or.inl hHeld)))
      rintro rfl
      exact hClosed (hNames ▸ hHeld)

/-- A path that avoids the forks of the join and the actions behind them has been walked. -/
theorem Polices.mem_of_clear (hPolices : Polices w join ∅ seen s)
    (hGathered : s.gathered = []) (hStart : Node.startName ∈ seen)
    (hClear : Relation.ReflTransGen (w.AvoidsClearly join) Node.startName name) : name ∈ seen := by
  induction hClear with
  | refl => exact hStart
  | @tail before target _ hStep ih =>
      obtain ⟨⟨hLeads, hOut⟩, hAction⟩ := hStep
      have hKnown : LeadsInto w (seen ∪ ∅) before → target ∈ seen :=
        fun hInto => (hInto target hLeads).resolve_right (Set.notMem_empty target)
      rcases hPolices.handled before ih with hOpens | hFollowed | hHeld | hInto
      · exact absurd hOpens hOut
      · obtain ⟨hFind, hOutcomes⟩ := hPolices.outcomes before hFollowed
        rcases hOutcomes with hInside | hInto
        · exact absurd hInside (hAction hFind)
        · exact hKnown hInto
      · rw [hGathered] at hHeld
        exact absurd hHeld List.not_mem_nil
      · exact hKnown hInto

end Policing

end Walk

/-- Where tasks have been made, no join is clearly entered from outside. -/
theorem not_enteredClearly_of_ofWorkflow {w : Workflow} {options : TaskOptions} {g : TaskGraph}
    (hNested : Workflow.Nested w.nodes w.closingJoins)
    (hGraph : (TaskGraph.ofWorkflow w options).result = .ok g) (join : String) :
    ¬w.EnteredClearly join := by
  rintro ⟨hJoin, hClear⟩
  obtain ⟨s, hWalked, -⟩ := Walk.exists_walked_of_ofWorkflow hGraph
  have hNone : Walk.Polices w join ∅ ∅ {} :=
    ⟨Set.notMem_empty join, fun _ hName => absurd hName (Set.notMem_empty _),
      fun _ hName => absurd hName List.not_mem_nil⟩
  obtain ⟨seen, -, hVisits, hPolices⟩ := hWalked.polices hNested hJoin ∅ ∅
    (fun visit hVisit => List.mem_singleton.mp hVisit ▸ .start w.nodes) List.not_mem_nil hNone
  have hGathered : s.gathered = [] := List.forall₂_nil_left_iff.mp hWalked.gathers
  exact hPolices.apart
    (hPolices.mem_of_clear hGathered (hVisits _ List.mem_cons_self) hClear)

end WorkflowDag
