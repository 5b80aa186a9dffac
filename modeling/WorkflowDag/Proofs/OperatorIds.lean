import Mathlib.Data.List.Nodup
import WorkflowDag.Proofs.KeyTexts
import WorkflowDag.Proofs.Success

/-!
# Ids of operators

A free name is not taken (`freeName_notMem`).  Planning takes a free name for the branch operator of
each decision and for the dummy of each of its branches, so that all ids stay distinct
(`planBranches_spec`), and every branch of a planned decision has a dummy that sends its signal.
-/

namespace WorkflowDag

section FreeNames

variable (taken : List String) (base : String)

/-- A numbered name is taken only when all the names tried before it are. -/
private theorem mem_of_numberedName_mem (steps : Nat) :
    ∀ n, numberedName taken base steps n ∈ taken →
      ∀ k, k ≤ steps → base ++ "_" ++ Text.decimal (n + k) ∈ taken := by
  induction steps with
  | zero =>
      intro n hMem k hk
      obtain rfl : k = 0 := by omega
      exact hMem
  | succ steps ih =>
      intro n hMem k hk
      unfold numberedName at hMem
      by_cases hTaken : base ++ "_" ++ Text.decimal n ∈ taken
      · simp only [List.contains_iff_mem, hTaken, if_true] at hMem
        cases k with
        | zero => exact hTaken
        | succ k =>
            have hNext := ih (n + 1) hMem k (by omega)
            rwa [show n + 1 + k = n + (k + 1) by omega] at hNext
      · simp only [List.contains_iff_mem, hTaken, if_false] at hMem

/-- One more name than are taken cannot all be taken. -/
theorem numberedName_notMem (n : Nat) : numberedName taken base taken.length n ∉ taken := by
  intro hMem
  have hAll := mem_of_numberedName_mem taken base taken.length n hMem
  let names := (List.range (taken.length + 1)).map fun k => base ++ "_" ++ Text.decimal (n + k)
  have hDistinct : names.Nodup := by
    apply List.Nodup.map _ List.nodup_range
    intro k k' hSame
    have hNumber : n + k = n + k' := Text.decimal_injective (by simpa using hSame)
    omega
  have hSubset : names ⊆ taken := by
    intro name hName
    obtain ⟨k, hk, rfl⟩ := List.mem_map.mp hName
    exact hAll k (by simpa [Nat.lt_succ_iff] using hk)
  have hLength := List.Nodup.length_le_of_subset hDistinct hSubset
  rw [List.length_map, List.length_range] at hLength
  omega

/-- A free name is not taken. -/
theorem freeName_notMem : freeName taken base ∉ taken := by
  unfold freeName
  by_cases hTaken : base ∈ taken
  · rw [if_pos (by simpa using hTaken)]
    exact numberedName_notMem taken base 2
  · rwa [if_neg (by simpa using hTaken)]

end FreeNames

namespace Wiring

/-- The ids of a decision: of its branch operator and of the dummies of its branches. -/
def BranchPlan.ids (p : BranchPlan) : List String :=
  p.id :: p.dummies

/-- Dummies of cases are given one free name after the other. -/
theorem planCases_spec (id : String) (records : List CaseRecord) :
    ∀ taken n, (planCases id taken n records).1.length = records.length ∧
      (planCases id taken n records).2 = (planCases id taken n records).1.reverse ++ taken ∧
      (taken.Nodup → (planCases id taken n records).2.Nodup) := by
  induction records with
  | nil => exact fun taken n => ⟨rfl, rfl, fun hTaken => hTaken⟩
  | cons record rest ih =>
      intro taken n
      let name := freeName taken (id ++ "_case_" ++ Text.decimal (n + 1))
      obtain ⟨hLength, hTaken, hDistinct⟩ := ih (name :: taken) (n + 1)
      have hFresh : name ∉ taken := freeName_notMem taken _
      refine ⟨congrArg (· + 1) hLength, ?_, fun hOld => ?_⟩
      · show (planCases id (name :: taken) (n + 1) rest).2 =
          (name :: (planCases id (name :: taken) (n + 1) rest).1).reverse ++ taken
        rw [hTaken, List.reverse_cons, List.append_assoc, List.singleton_append]
      · exact hDistinct (List.nodup_cons.mpr ⟨hFresh, hOld⟩)

/-- A decision is given free names, in turn for its operator, its cases and its default branch. -/
theorem planBranch_spec {taken taken' : List String} {record : ResolvedDecision}
    {plan : BranchPlan} (hPlan : planBranch taken record = (plan, taken')) :
    plan.record = record ∧ plan.cases.length = record.cases.length ∧
      taken' = plan.ids.reverse ++ taken ∧ (taken.Nodup → taken'.Nodup) := by
  let id := freeName taken (Task.idOf record.decision)
  obtain ⟨hLength, hTaken, hDistinct⟩ := planCases_spec id record.cases (id :: taken) 0
  have hFresh : id ∉ taken := freeName_notMem taken _
  cases hPlan
  refine ⟨rfl, hLength, ?_, fun hOld => ?_⟩
  · rw [hTaken]
    simp [BranchPlan.ids, BranchPlan.dummies, id]
  · exact List.nodup_cons.mpr
      ⟨freeName_notMem _ _, hDistinct (List.nodup_cons.mpr ⟨hFresh, hOld⟩)⟩

end Wiring

/-- A record is found under the name of its own decision. -/
theorem TaskGraph.mem_of_recordOf? {g : TaskGraph} {decision : String} {record : ResolvedDecision}
    (hRecord : g.recordOf? decision = some record) :
    record ∈ g.decisions ∧ record.decision = decision := by
  have hDecision := List.find?_some hRecord
  exact ⟨List.mem_reverse.mp (List.mem_of_find?_eq_some hRecord), eq_of_beq hDecision⟩

namespace Wiring

/-- What planning gives: a plan for each decision from its record, with ids that nothing had. -/
structure Planned (g : TaskGraph) (decisions taken : List String) (plans : List BranchPlan)
    (taken' : List String) : Prop where
  decisions : plans.map (fun plan => plan.record.decision) = decisions
  recorded : ∀ plan ∈ plans, g.recordOf? plan.record.decision = some plan.record
  cases : ∀ plan ∈ plans, plan.cases.length = plan.record.cases.length
  takes : taken' = (plans.flatMap BranchPlan.ids).reverse ++ taken
  distinct : taken.Nodup → taken'.Nodup

theorem planBranches_spec {g : TaskGraph} (decisions : List String) :
    ∀ {taken taken' : List String} {plans : List BranchPlan},
      planBranches g taken decisions = .ok (plans, taken') →
      Planned g decisions taken plans taken' := by
  induction decisions with
  | nil =>
      intro taken taken' plans hPlans
      cases hPlans
      exact ⟨rfl, fun _ hPlan => absurd hPlan List.not_mem_nil,
        fun _ hPlan => absurd hPlan List.not_mem_nil, rfl, fun hTaken => hTaken⟩
  | cons decision rest ih =>
      intro taken taken' plans hPlans
      unfold planBranches at hPlans
      cases hRecord : g.recordOf? decision with
      | none =>
          rw [hRecord] at hPlans
          cases hPlans
      | some record =>
          obtain ⟨first, taken1, hFirst⟩ : ∃ first taken1, planBranch taken record =
            (first, taken1) := ⟨_, _, rfl⟩
          rw [hRecord] at hPlans
          simp only [hFirst] at hPlans
          obtain ⟨⟨others, last⟩, hOthers, hPlans⟩ := bind_eq_ok_iff.mp hPlans
          cases hPlans
          obtain ⟨hOwn, hCases, hTaken, hDistinct⟩ := planBranch_spec hFirst
          have hDecision := (TaskGraph.mem_of_recordOf? hRecord).2
          have hRest := ih hOthers
          constructor
          · rw [List.map_cons, hRest.decisions, hOwn, hDecision]
          · intro plan hPlan
            rcases List.mem_cons.mp hPlan with rfl | hPlan
            · rw [hOwn, hDecision, hRecord]
            · exact hRest.recorded plan hPlan
          · intro plan hPlan
            rcases List.mem_cons.mp hPlan with rfl | hPlan
            · rw [hCases, hOwn]
            · exact hRest.cases plan hPlan
          · rw [hRest.takes, hTaken, List.flatMap_cons, List.reverse_append, List.append_assoc]
          · exact fun hOld => hRest.distinct (hDistinct hOld)

section Distinct

variable {g : TaskGraph} {decisions taken taken' : List String} {plans : List BranchPlan}

/-- The dummies of a decision are different ones. -/
theorem Planned.nodup_dummies (hPlanned : Planned g decisions taken plans taken')
    (hTaken : taken.Nodup) {plan : BranchPlan} (hPlan : plan ∈ plans) : plan.dummies.Nodup := by
  have hAll := hPlanned.distinct hTaken
  rw [hPlanned.takes, List.nodup_append, List.nodup_reverse, List.nodup_flatMap] at hAll
  exact (List.nodup_cons.mp (hAll.1.1 plan hPlan)).2

/-- Branch operators have ids of their own. -/
theorem Planned.nodup_ids (hPlanned : Planned g decisions taken plans taken')
    (hTaken : taken.Nodup) : (plans.map BranchPlan.id).Nodup := by
  have hAll := hPlanned.distinct hTaken
  rw [hPlanned.takes, List.nodup_append, List.nodup_reverse, List.nodup_flatMap] at hAll
  refine List.pairwise_map.mpr (hAll.1.2.imp fun {first second} hApart hSame => ?_)
  have hFirst : first.id ∈ first.ids := List.mem_cons_self
  have hSecond : first.id ∈ second.ids := hSame ▸ List.mem_cons_self
  exact hApart hFirst hSecond

end Distinct

/-- Planning succeeds when every decision has a record. -/
theorem planBranches_total {g : TaskGraph} (decisions : List String)
    (hRecords : ∀ decision ∈ decisions, ∃ record, g.recordOf? decision = some record) :
    ∀ taken, ∃ planned, planBranches g taken decisions = .ok planned := by
  induction decisions with
  | nil => exact fun taken => ⟨([], taken), rfl⟩
  | cons decision rest ih =>
      intro taken
      obtain ⟨record, hRecord⟩ := hRecords decision List.mem_cons_self
      obtain ⟨⟨plans, last⟩, hPlans⟩ :=
        ih (fun other hMem => hRecords other (List.mem_cons_of_mem _ hMem))
          (planBranch taken record).2
      refine ⟨((planBranch taken record).1 :: plans, last), ?_⟩
      unfold planBranches
      rw [hRecord]
      exact bind_eq_ok_iff.mpr ⟨(plans, last), hPlans, rfl⟩

section Senders

variable {plans : List BranchPlan} {step : PassedBranch} {id : String}

/-- The dummy of a branch is among the dummies of its decision. -/
theorem BranchPlan.mem_dummies_of_branch? {plan : BranchPlan} {caseIndex : Option Nat}
    (hBranch : plan.branch? caseIndex = some id) : id ∈ plan.dummies := by
  cases caseIndex with
  | none =>
      cases hBranch
      exact List.mem_append_right _ (List.mem_singleton.mpr rfl)
  | some index => exact List.mem_append_left _ (List.mem_of_getElem? hBranch)

theorem exists_plan_of_sender (hSender : sender plans (.branch step) = .ok id) :
    ∃ plan ∈ plans, plan.record.decision = step.decision ∧
      plan.branch? step.caseIndex = some id := by
  simp only [sender] at hSender
  split at hSender
  next found hFound =>
    cases hSender
    obtain ⟨plan, hPlan, hBranch⟩ := Option.bind_eq_some_iff.mp hFound
    have hDecision := List.find?_some hPlan
    exact ⟨plan, List.mem_of_find?_eq_some hPlan, eq_of_beq hDecision, hBranch⟩
  next => cases hSender

/-- With one plan for each decision, the dummy of a branch sends its signal. -/
theorem sender_of_plan {plan : BranchPlan}
    (hDistinct : (plans.map fun plan => plan.record.decision).Nodup) (hPlan : plan ∈ plans)
    (hDecision : plan.record.decision = step.decision)
    (hBranch : plan.branch? step.caseIndex = some id) :
    sender plans (.branch step) = .ok id := by
  have hFind : (plans.find? fun plan => plan.record.decision == step.decision) = some plan := by
    cases hFound : plans.find? fun plan => plan.record.decision == step.decision with
    | none =>
        have hNone := List.find?_eq_none.mp hFound plan hPlan
        exact absurd (beq_iff_eq.mpr hDecision) hNone
    | some other =>
        have hOther := List.mem_of_find?_eq_some hFound
        have hName := List.find?_some hFound
        rw [beq_iff_eq] at hName
        rw [List.inj_on_of_nodup_map hDistinct hOther hPlan (hName.trans hDecision.symm)]
  simp only [sender]
  rw [hFind, Option.bind_some, hBranch]

end Senders

end Wiring

end WorkflowDag
