import Mathlib.Logic.Function.Basic
import WorkflowDag.Proofs.LayoutTotal

/-!
# Runs of a layout

A run gives an outcome to each operator that runs: those whose trigger rule holds over what they
wait on, without the dummies that a branch operator has not chosen.  A layout can be run in its own
order (`exists_run`).

Gates and dummies carry signals on: an operator that relays a signal succeeds exactly when the
signal has come (`Relays.fired_of_success`, `Relays.success_of_fired`).  So the operator of a task
or of a decision runs only when one of the signals that it waits on has come or when it waits on
none (`Station.fired_of_runs`).  While nothing but kills fails, it runs exactly then
(`Assembled.run_of_fired`).
-/

namespace WorkflowDag

/-- The rule holds over the outcomes of what an operator waits on.  What has not run has none. -/
def TriggerRule.Holds (rule : TriggerRule) (outcomes : List (Option Outcome)) : Prop :=
  match rule with
  | .allSuccess => ∀ outcome ∈ outcomes, outcome = some .success
  | .oneSuccess => some .success ∈ outcomes
  | .oneFailed => some .failure ∈ outcomes
  | .noneFailedMinOneSuccess => some .failure ∉ outcomes ∧ some .success ∈ outcomes

instance (rule : TriggerRule) (outcomes : List (Option Outcome)) :
    Decidable (rule.Holds outcomes) :=
  match rule with
  | .allSuccess => inferInstanceAs (Decidable (∀ outcome ∈ outcomes, outcome = some .success))
  | .oneSuccess => inferInstanceAs (Decidable (some .success ∈ outcomes))
  | .oneFailed => inferInstanceAs (Decidable (some .failure ∈ outcomes))
  | .noneFailedMinOneSuccess =>
    inferInstanceAs (Decidable (some .failure ∉ outcomes ∧ some .success ∈ outcomes))

namespace Operator

/-- The dummy that a branch operator follows. -/
def chosen? (o : Operator) : Option String :=
  match o.body with
  | .branch _ chosen => some chosen
  | _ => none

/-- The operator is a dummy. -/
def isDummy (o : Operator) : Bool :=
  match o.body with
  | .dummy => true
  | _ => false

/-- The operator is the task of a kill. -/
def isKill (o : Operator) : Bool :=
  match o.task? with
  | some task => task.body.isKill
  | none => false

/-- No branch operator that a dummy waits on has chosen another. -/
def Follows (o : Operator) (operators : List Operator) : Prop :=
  o.isDummy = true → ∀ b ∈ operators, b.id ∈ o.predecessors → b.chosen?.all (· = o.id) = true

instance (o : Operator) (operators : List Operator) : Decidable (o.Follows operators) :=
  inferInstanceAs (Decidable (_ → _))

theorem follows_iff_of_perm {o : Operator} {operators ordered : List Operator}
    (hPerm : ordered.Perm operators) : o.Follows ordered ↔ o.Follows operators := by
  unfold Follows
  simp only [hPerm.mem_iff]

/-- The operator runs when others have these outcomes. -/
def Runs (o : Operator) (operators : List Operator) (status : String → Option Outcome) : Prop :=
  o.triggerRule.Holds (o.predecessors.map status) ∧ o.Follows operators

instance (o : Operator) (operators : List Operator) (status : String → Option Outcome) :
    Decidable (o.Runs operators status) :=
  inferInstanceAs (Decidable (_ ∧ _))

/-- Only the outcomes of what it waits on matter to an operator. -/
theorem runs_congr {o : Operator} {operators : List Operator}
    {status status' : String → Option Outcome}
    (hBefore : o.predecessors.map status = o.predecessors.map status') :
    o.Runs operators status ↔ o.Runs operators status' := by
  unfold Runs
  rw [hBefore]

end Operator

/-- Outcomes of operators that make up a run.  Only tasks fail. -/
structure Run (operators : List Operator) (status : String → Option Outcome) : Prop where
  runs : ∀ o ∈ operators, (status o.id).isSome = true ↔ o.Runs operators status
  fails : ∀ o ∈ operators, status o.id = some .failure → o.task?.isSome = true

/-- Nothing but kills fails. -/
def FailureFree (operators : List Operator) (status : String → Option Outcome) : Prop :=
  ∀ o ∈ operators, status o.id = some .failure → o.isKill = true

/-- Whatever succeeds has been triggered.  This is all of a run that matters to what signals
tell. -/
def Triggered (operators : List Operator) (status : String → Option Outcome) : Prop :=
  ∀ o ∈ operators, status o.id = some .success → o.Runs operators status

theorem Run.triggered {operators : List Operator} {status : String → Option Outcome}
    (hRun : Run operators status) : Triggered operators status := by
  intro o hMem hSuccess
  rw [← hRun.runs o hMem, hSuccess]
  rfl

/-- The order of the operators does not matter to a run. -/
theorem Run.of_perm {operators ordered : List Operator} {status : String → Option Outcome}
    (hPerm : ordered.Perm operators) (hRun : Run ordered status) : Run operators status where
  runs := by
    intro o hMem
    rw [hRun.runs o (hPerm.mem_iff.mpr hMem)]
    unfold Operator.Runs
    rw [Operator.follows_iff_of_perm hPerm]
  fails := fun o hMem => hRun.fails o (hPerm.mem_iff.mpr hMem)

namespace Layout

/-- Settles operators one after the other, each by what the others have come to. -/
def settle {σ : Type} (next : Operator → (String → σ) → σ) :
    (String → σ) → List Operator → String → σ
  | status, [] => status
  | status, o :: rest => settle next (Function.update status o.id (next o status)) rest

theorem settle_of_notMem {σ : Type} {next : Operator → (String → σ) → σ} {id : String}
    (rest : List Operator) :
    ∀ status : String → σ, id ∉ rest.map Operator.id → settle next status rest id = status id := by
  induction rest with
  | nil => exact fun status _ => rfl
  | cons o rest ih =>
      intro status hAbsent
      rw [List.map_cons, List.mem_cons, not_or] at hAbsent
      rw [settle, ih _ hAbsent.2, Function.update_of_ne hAbsent.1]

/-- Behind all that it waits on, an operator is settled as the final state says. -/
theorem settle_spec {σ : Type} {next : Operator → (String → σ) → σ}
    (hLocal : ∀ o status status', o.predecessors.map status = o.predecessors.map status' →
      next o status = next o status') (rest : List Operator) :
    ∀ (placed : List String) (status : String → σ), InOrder placed rest →
      (rest.map Operator.id).Nodup → (∀ id ∈ placed, id ∉ rest.map Operator.id) →
      ∀ o ∈ rest, settle next status rest o.id = next o (settle next status rest) := by
  induction rest with
  | nil => exact fun _ _ _ _ _ o hMem => absurd hMem List.not_mem_nil
  | cons first rest ih =>
      intro placed status hOrder hIds hPlaced o hMem
      obtain ⟨hReady, hOrder⟩ := hOrder
      rw [List.map_cons, List.nodup_cons] at hIds
      rcases List.mem_cons.mp hMem with rfl | hLater
      · -- What the first operator waits on has come to its final state already.
        have hBefore : o.predecessors.map status =
            o.predecessors.map (settle next status (o :: rest)) := by
          apply List.map_congr_left
          intro id hId
          exact (settle_of_notMem (o :: rest) status (hPlaced id (hReady id hId))).symm
        rw [← hLocal o _ _ hBefore, settle, settle_of_notMem rest _ hIds.1, Function.update_self]
      · refine ih (first.id :: placed) _ hOrder hIds.2 ?_ o hLater
        intro id hId
        rcases List.mem_cons.mp hId with rfl | hEarlier
        · exact hIds.1
        · intro hRest
          exact hPlaced id hEarlier (List.mem_cons_of_mem _ hRest)

/-- Operators that are in order can be settled. -/
theorem exists_settled {σ : Type} {next : Operator → (String → σ) → σ} (initial : σ)
    (hLocal : ∀ o status status', o.predecessors.map status = o.predecessors.map status' →
      next o status = next o status') {ordered : List Operator} (hOrder : InOrder [] ordered)
    (hIds : (ordered.map Operator.id).Nodup) :
    ∃ status : String → σ, ∀ o ∈ ordered, status o.id = next o status :=
  ⟨_, settle_spec hLocal ordered [] (fun _ => initial) hOrder hIds
    fun _ hMem => absurd hMem List.not_mem_nil⟩

/-- A layout has a run, whatever the outcomes of its tasks. -/
theorem exists_run {ordered : List Operator} (hOrder : InOrder [] ordered)
    (hIds : (ordered.map Operator.id).Nodup) (outcome : Operator → Outcome)
    (hOutcome : ∀ o ∈ ordered, outcome o = .failure → o.task?.isSome = true) :
    ∃ status, Run ordered status ∧
      ∀ o ∈ ordered, ∀ result, status o.id = some result → result = outcome o := by
  obtain ⟨status, hStatus⟩ : ∃ status : String → Option Outcome, ∀ o ∈ ordered,
      status o.id = if o.Runs ordered status then some (outcome o) else none := by
    refine exists_settled none ?_ hOrder hIds
    intro o status status' hBefore
    simp only [Operator.runs_congr hBefore]
  have hResult : ∀ o ∈ ordered, ∀ result, status o.id = some result → result = outcome o := by
    intro o hMem result hSome
    rw [hStatus o hMem] at hSome
    split at hSome
    · exact (Option.some.inj hSome).symm
    · cases hSome
  refine ⟨status, ⟨?_, ?_⟩, hResult⟩
  · intro o hMem
    rw [hStatus o hMem]
    by_cases hRuns : o.Runs ordered status
    · simp [hRuns]
    · simp [hRuns]
  · intro o hMem hFailure
    exact hOutcome o hMem (hResult o hMem _ hFailure).symm

end Layout

theorem eq_success_iff {outcome : Option Outcome} (hFailure : outcome ≠ some .failure) :
    outcome = some .success ↔ outcome.isSome = true := by
  cases outcome with
  | none => simp
  | some result =>
      cases result with
      | success => simp
      | failure => exact absurd rfl hFailure

/-- What is no task does not fail, so it succeeds when it runs. -/
theorem Run.success_iff {operators : List Operator} {status : String → Option Outcome}
    (hRun : Run operators status) {o : Operator} (hMem : o ∈ operators) (hTask : o.task? = none) :
    status o.id = some .success ↔ o.Runs operators status := by
  rw [← hRun.runs o hMem]
  apply eq_success_iff
  intro hFailure
  have hFails := hRun.fails o hMem hFailure
  rw [hTask] at hFails
  cases hFails

namespace Wiring

/-- The signal has come. -/
def Fired (plans : List BranchPlan) (status : String → Option Outcome) : Signal → Prop
  | .success task => status task = some .success
  | .failure task => status task = some .failure
  | .branch step => ∃ id, sender plans (.branch step) = .ok id ∧ status id = some .success

/-- Signals with the same core come together. -/
theorem fired_of_core {plans : List BranchPlan} {status : String → Option Outcome}
    {signal other : Signal} (hCore : signal.core = other.core)
    (hFired : Fired plans status signal) :
    Fired plans status other := by
  have hShown : ∀ signal, Fired plans status signal.core ↔ Fired plans status signal := by
    intro signal
    cases signal with
    | success task => exact Iff.rfl
    | failure task => exact Iff.rfl
    | branch step => exact Iff.rfl
  rw [← hShown, ← hCore, hShown]
  exact hFired

theorem fired_branch {plans : List BranchPlan} {status : String → Option Outcome}
    {step : PassedBranch} {id : String} (hSender : sender plans (.branch step) = .ok id) :
    Fired plans status (.branch step) ↔ status id = some .success := by
  constructor
  · rintro ⟨other, hOther, hSuccess⟩
    cases Except.ok.inj (hOther.symm.trans hSender)
    exact hSuccess
  · exact fun hSuccess => ⟨id, hSender, hSuccess⟩

/-- The id is not that of a branch operator. -/
def NoBranch (operators : List Operator) (id : String) : Prop :=
  ∀ b ∈ operators, b.id = id → b.chosen? = none

theorem noBranch_of_mem {operators : List Operator} (hIds : (operators.map Operator.id).Nodup)
    {o : Operator} (hMem : o ∈ operators) (hChosen : o.chosen? = none) :
    NoBranch operators o.id := by
  intro b hBranch hId
  rw [List.inj_on_of_nodup_map hIds hBranch hMem hId]
  exact hChosen

theorem follows_of_noBranch {operators : List Operator} {o : Operator}
    (hBefore : ∀ id ∈ o.predecessors, NoBranch operators id) : o.Follows operators := by
  intro _ b hBranch hId
  rw [hBefore b.id hId b hBranch rfl]
  rfl

section Signals

variable {g : TaskGraph} {plans : List BranchPlan} {operators : List Operator}
  {status : String → Option Outcome}

/-- Tasks, gates and dummies relay signals; branch operators do not. -/
theorem Relays.noBranch (hWired : Wired g plans operators) {signal : Signal} {id : String}
    (hSent : Sent g plans signal) (hRelays : Relays plans operators signal id) :
    NoBranch operators id := by
  cases signal with
  | success task =>
      cases hRelays
      obtain ⟨t, ht, rfl, -⟩ := hSent.task _ (Or.inl rfl)
      obtain ⟨predecessors, hMem, -⟩ := hWired.tasks t ht
      exact noBranch_of_mem hWired.distinct hMem rfl
  | failure task => exact noBranch_of_mem hWired.distinct hRelays rfl
  | branch step =>
      obtain ⟨plan, hPlan, -, hBranch⟩ := exists_plan_of_sender hRelays
      have hDummy := hWired.dummies plan hPlan id (BranchPlan.mem_dummies_of_branch? hBranch)
      exact noBranch_of_mem hWired.distinct hDummy rfl

/-- What relays a signal succeeds only when the signal has come. -/
theorem Relays.fired_of_success (hTriggered : Triggered operators status) {signal : Signal}
    {id : String} (hRelays : Relays plans operators signal id)
    (hSuccess : status id = some .success) :
    Fired plans status signal := by
  cases signal with
  | success task =>
      cases hRelays
      exact hSuccess
  | failure task =>
      have hHolds := (hTriggered _ hRelays hSuccess).1
      exact (List.mem_singleton.mp hHolds).symm
  | branch step => exact (fired_branch hRelays).mpr hSuccess

/-- What relays a signal succeeds when the signal has come. -/
theorem Relays.success_of_fired (hWired : Wired g plans operators) (hRun : Run operators status)
    {signal : Signal} {id : String} (hSent : Sent g plans signal)
    (hRelays : Relays plans operators signal id) (hFired : Fired plans status signal) :
    status id = some .success := by
  cases signal with
  | success task =>
      cases hRelays
      exact hFired
  | failure task =>
      obtain ⟨t, ht, rfl, -⟩ := hSent.task _ (Or.inr rfl)
      obtain ⟨predecessors, hMem, -⟩ := hWired.tasks t ht
      rw [hRun.success_iff hRelays rfl]
      refine ⟨List.mem_singleton.mpr hFired.symm, follows_of_noBranch ?_⟩
      intro before hBefore
      rw [List.mem_singleton.mp hBefore]
      exact noBranch_of_mem hWired.distinct hMem rfl
  | branch step => exact (fired_branch hRelays).mp hFired

/-- While nothing but kills fails, what relays a signal does not fail. -/
theorem Relays.ne_failure (hWired : Wired g plans operators) (hFree : FailureFree operators status)
    {signal : Signal} {id : String} (hSent : Sent g plans signal)
    (hRelays : Relays plans operators signal id) : status id ≠ some .failure := by
  intro hFailure
  cases signal with
  | success task =>
      cases hRelays
      obtain ⟨t, ht, rfl, hAction⟩ := hSent.task _ (Or.inl rfl)
      obtain ⟨predecessors, hMem, -⟩ := hWired.tasks t ht
      have hKill : t.body.isKill = true := hFree _ hMem hFailure
      rw [hAction] at hKill
      cases hKill
  | failure task => cases hFree _ hRelays hFailure
  | branch step =>
      obtain ⟨plan, hPlan, -, hBranch⟩ := exists_plan_of_sender hRelays
      have hDummy := hWired.dummies plan hPlan id (BranchPlan.mem_dummies_of_branch? hBranch)
      cases hFree _ hDummy hFailure

end Signals

section Lists

variable {α : Type} {R : α → String → Prop} {Came : α → Prop} {items : List α} {ids : List String}
  {status : String → Option Outcome}

theorem exists_mem_right_of_forall₂ (hAll : List.Forall₂ R items ids) {item : α}
    (hMem : item ∈ items) : ∃ id ∈ ids, R item id :=
  exists_mem_left_of_forall₂ (R := flip R) hAll.flip hMem

theorem mem_map_eraseDups {outcome : Option Outcome} :
    outcome ∈ ids.eraseDups.map status ↔ ∃ id ∈ ids, status id = outcome := by
  simp

/-- Among ids that succeed only for what has come, one that succeeds stands for something. -/
theorem exists_came_of_success (hAll : List.Forall₂ R items ids)
    (hCame : ∀ item ∈ items, ∀ id, R item id → status id = some .success → Came item)
    (hSuccess : some .success ∈ ids.eraseDups.map status) : ∃ item ∈ items, Came item := by
  obtain ⟨id, hId, hStatus⟩ := mem_map_eraseDups.mp hSuccess
  obtain ⟨item, hItem, hPair⟩ := exists_mem_left_of_forall₂ hAll hId
  exact ⟨item, hItem, hCame item hItem id hPair hStatus⟩

theorem success_of_came (hAll : List.Forall₂ R items ids)
    (hCame : ∀ item ∈ items, ∀ id, R item id → Came item → status id = some .success)
    (hSome : ∃ item ∈ items, Came item) : some .success ∈ ids.eraseDups.map status := by
  obtain ⟨item, hItem, hOwn⟩ := hSome
  obtain ⟨id, hId, hPair⟩ := exists_mem_right_of_forall₂ hAll hItem
  exact mem_map_eraseDups.mpr ⟨id, hId, hCame item hItem id hPair hOwn⟩

theorem failure_notMem (hAll : List.Forall₂ R items ids)
    (hNone : ∀ item ∈ items, ∀ id, R item id → status id ≠ some .failure) :
    some .failure ∉ ids.eraseDups.map status := by
  intro hFailure
  obtain ⟨id, hId, hStatus⟩ := mem_map_eraseDups.mp hFailure
  obtain ⟨item, hItem, hPair⟩ := exists_mem_left_of_forall₂ hAll hId
  exact hNone item hItem id hPair hStatus

end Lists

/-- One of the signals has come. -/
def SomeFired (plans : List BranchPlan) (status : String → Option Outcome)
    (signals : List Signal) : Prop :=
  ∃ signal ∈ signals, Fired plans status signal

section Gates

variable {g : TaskGraph} {plans : List BranchPlan} {operators : List Operator}
  {status : String → Option Outcome} {signals : List Signal} {arrival : Arrival} {id : String}

theorem Gates.fired_of_success (hTriggered : Triggered operators status)
    (hGates : Gates plans operators signals id) (hSuccess : status id = some .success) :
    SomeFired plans status signals := by
  obtain ⟨ids, hRelays, hGate⟩ := hGates
  have hRuns := hTriggered _ hGate hSuccess
  exact exists_came_of_success hRelays
    (fun signal _ id hRelay => hRelay.fired_of_success hTriggered) hRuns.1.2

theorem Gates.success_of_fired (hWired : Wired g plans operators) (hRun : Run operators status)
    (hFree : FailureFree operators status) (hSent : ∀ signal ∈ signals, Sent g plans signal)
    (hGates : Gates plans operators signals id) (hFired : SomeFired plans status signals) :
    status id = some .success := by
  obtain ⟨ids, hRelays, hGate⟩ := hGates
  rw [hRun.success_iff hGate rfl]
  refine ⟨⟨?_, ?_⟩, follows_of_noBranch ?_⟩
  · exact failure_notMem hRelays fun signal hSignal id hRelay =>
      hRelay.ne_failure hWired hFree (hSent signal hSignal)
  · exact success_of_came hRelays
      (fun signal hSignal id hRelay => hRelay.success_of_fired hWired hRun (hSent signal hSignal))
      hFired
  · intro before hBefore
    obtain ⟨signal, hSignal, hRelay⟩ :=
      exists_mem_left_of_forall₂ hRelays (List.mem_eraseDups.mp hBefore)
    exact hRelay.noBranch hWired (hSent signal hSignal)

theorem Enters.fired_of_success (hTriggered : Triggered operators status)
    (hEnters : Enters plans operators arrival id) (hSuccess : status id = some .success) :
    SomeFired plans status arrival.signals := by
  rcases hEnters with ⟨signal, hSignals, hRelays⟩ | hGates
  · have hMem : signal ∈ arrival.signals := hSignals ▸ List.mem_singleton.mpr rfl
    exact ⟨signal, hMem, hRelays.fired_of_success hTriggered hSuccess⟩
  · exact hGates.fired_of_success hTriggered hSuccess

theorem Enters.success_of_fired (hWired : Wired g plans operators) (hRun : Run operators status)
    (hFree : FailureFree operators status) (hArrival : Expected g plans arrival)
    (hEnters : Enters plans operators arrival id)
    (hFired : SomeFired plans status arrival.signals) : status id = some .success := by
  rcases hEnters with ⟨signal, hSignals, hRelays⟩ | hGates
  · have hMem : signal ∈ arrival.signals := hSignals ▸ List.mem_singleton.mpr rfl
    obtain ⟨other, hOther, hCame⟩ := hFired
    rw [hSignals, List.mem_singleton] at hOther
    rw [hOther] at hCame
    exact hRelays.success_of_fired hWired hRun (hArrival.sent signal hMem) hCame
  · exact hGates.success_of_fired hWired hRun hFree hArrival.sent hFired

end Gates

section Awaiting

variable {g : TaskGraph} {plans : List BranchPlan} {operators : List Operator}
  {status : String → Option Outcome} {found : List Arrival} {ids : List String}

/-- A rule that holds over what is awaited tells of an arrival, if there is any. -/
theorem Awaits.fired_of_holds (hTriggered : Triggered operators status)
    (hFilled : ∀ arrival ∈ found, arrival.signals ≠ []) (hAwaits : Awaits plans operators found ids)
    (hHolds : (TriggerRule.ofArrivals found).Holds (ids.map status)) :
    found = [] ∨ ∃ arrival ∈ found, SomeFired plans status arrival.signals := by
  cases hAwaits with
  | failures hRule hSenders =>
      -- The failed tasks are waited on themselves, without gates between.
      rw [hRule] at hHolds
      obtain ⟨id, hId, hFailure⟩ := mem_map_eraseDups.mp hHolds
      obtain ⟨signal, hSignal, hSender⟩ := exists_mem_left_of_forall₂ hSenders hId
      obtain ⟨arrival, hArrival, hSignal⟩ := List.mem_flatMap.mp hSignal
      obtain ⟨task, rfl⟩ := TriggerRule.eq_failure_of_oneFailed hRule hArrival hSignal
      cases hSender
      exact Or.inr ⟨arrival, hArrival, _, hSignal, hFailure⟩
  | @single only _ hRule hRelays =>
      have hOnly : only ∈ [only] := List.mem_singleton.mpr rfl
      have hCame : ∀ signal ∈ only.signals, ∀ id, Relays plans operators signal id →
          status id = some .success → Fired plans status signal := fun signal _ id hRelay =>
        hRelay.fired_of_success hTriggered
      refine Or.inr ⟨only, hOnly, ?_⟩
      rw [TriggerRule.ofArrivals_single hRule] at hHolds
      split at hHolds
      · exact exists_came_of_success hRelays hCame hHolds.2
      · obtain ⟨signal, hSignal⟩ := List.exists_mem_of_ne_nil _ (hFilled only hOnly)
        obtain ⟨id, hId, hRelay⟩ := exists_mem_right_of_forall₂ hRelays hSignal
        have hSuccess := hHolds _ (mem_map_eraseDups.mpr ⟨id, hId, rfl⟩)
        exact ⟨signal, hSignal, hCame signal hSignal id hRelay hSuccess⟩
  | several hRule hSeveral hEnters =>
      rcases TriggerRule.ofArrivals_several hRule hSeveral with hNone | hOne
      · exact Or.inl hNone
      · rw [hOne] at hHolds
        exact Or.inr (exists_came_of_success hEnters
          (fun arrival _ id hEnter => hEnter.fired_of_success hTriggered) hHolds)

/-- While nothing but kills fails, one arrival is enough for the rule, and so is none to wait
for. -/
theorem Awaits.holds_of_fired (hWired : Wired g plans operators) (hRun : Run operators status)
    (hFree : FailureFree operators status) (hFound : ∀ arrival ∈ found, Expected g plans arrival)
    (hAwaits : Awaits plans operators found ids)
    (hFired : found = [] ∨ ∃ arrival ∈ found, SomeFired plans status arrival.signals) :
    (TriggerRule.ofArrivals found).Holds (ids.map status) := by
  cases hAwaits with
  | failures hRule hSenders =>
      rw [hRule]
      rcases hFired with rfl | ⟨arrival, hArrival, signal, hSignal, hCame⟩
      · cases hRule
      · obtain ⟨task, rfl⟩ := TriggerRule.eq_failure_of_oneFailed hRule hArrival hSignal
        obtain ⟨id, hId, hSender⟩ := exists_mem_right_of_forall₂ hSenders
          (List.mem_flatMap.mpr ⟨arrival, hArrival, hSignal⟩)
        cases hSender
        exact mem_map_eraseDups.mpr ⟨_, hId, hCame⟩
  | @single only _ hRule hRelays =>
      have hSent := (hFound only (List.mem_singleton.mpr rfl)).sent
      have hCame : ∀ signal ∈ only.signals, ∀ id, Relays plans operators signal id →
          Fired plans status signal → status id = some .success := fun signal hSignal id hRelay =>
        hRelay.success_of_fired hWired hRun (hSent signal hSignal)
      have hSome : SomeFired plans status only.signals := by
        simpa using hFired
      rw [TriggerRule.ofArrivals_single hRule]
      split
      · refine ⟨failure_notMem hRelays fun signal hSignal id hRelay => ?_,
          success_of_came hRelays hCame hSome⟩
        exact hRelay.ne_failure hWired hFree (hSent signal hSignal)
      next hShort =>
        -- There is one signal only, and it has come.
        intro outcome hOutcome
        obtain ⟨id, hId, rfl⟩ := mem_map_eraseDups.mp hOutcome
        obtain ⟨signal, hSignal, hRelay⟩ := exists_mem_left_of_forall₂ hRelays hId
        obtain ⟨other, hOther, hFired⟩ := hSome
        have hSame : other = signal := by
          obtain ⟨first, hSignals⟩ : ∃ first, only.signals = [first] := by
            rw [← List.length_eq_one_iff]
            have hPositive := List.length_pos_of_mem hSignal
            omega
          rw [hSignals, List.mem_singleton] at hOther hSignal
          rw [hOther, hSignal]
        exact hCame signal hSignal id hRelay (hSame ▸ hFired)
  | several hRule hSeveral hEnters =>
      rcases TriggerRule.ofArrivals_several hRule hSeveral with rfl | hOne
      · cases hEnters
        exact fun outcome hOutcome => absurd hOutcome List.not_mem_nil
      · rw [hOne]
        have hSome : ∃ arrival ∈ found, SomeFired plans status arrival.signals := by
          rcases hFired with rfl | hSome
          · cases hOne
          · exact hSome
        exact success_of_came hEnters (fun arrival hArrival id hEnter =>
          hEnter.success_of_fired hWired hRun hFree (hFound arrival hArrival)) hSome

/-- A task or a decision is triggered only when a signal has come, unless it waits on none. -/
theorem Station.fired_of_runs {w : Workflow} {name : String} {entries : List JoinedSignal}
    {o : Operator} (hStation : Station w g plans operators name entries o)
    (hTriggered : Triggered operators status) (hRuns : o.Runs operators status) :
    entries = [] ∨ ∃ e ∈ entries, Fired plans status e.signal := by
  have hHolds := hRuns.1
  rw [hStation.rule] at hHolds
  rcases hStation.awaits.fired_of_holds hTriggered
    (fun arrival => Arrival.signals_ne_nil_of_mem_group) hHolds with hNone | hSome
  · exact Or.inl (Arrival.group_eq_nil_iff.mp hNone)
  · obtain ⟨arrival, hArrival, signal, hSignal, hFired⟩ := hSome
    exact Or.inr ⟨_, Arrival.mem_of_mem_group hArrival hSignal, hFired⟩

end Awaiting

end Wiring

namespace Assembled

open Wiring

variable {w : Workflow} {options : TaskOptions} {g : TaskGraph} {plans : List BranchPlan}
  {operators : List Operator} {status : String → Option Outcome} {name : String}
  {entries : List JoinedSignal} {o : Operator}

theorem expected (h : Assembled w options g plans operators)
    (hStation : Station w g plans operators name entries o) :
    ∀ arrival ∈ Arrival.group entries, Expected g plans arrival := by
  obtain ⟨taken, hPlanned⟩ := h.planned
  exact fun arrival hArrival =>
    hPlanned.expected h.checked h.free h.transformed hStation.collects hArrival

/-- While nothing but kills fails, a task or a decision runs when a signal has come or when it waits
on none. -/
theorem run_of_fired (h : Assembled w options g plans operators) (hRun : Run operators status)
    (hFree : FailureFree operators status) (hStation : Station w g plans operators name entries o)
    (hFired : entries = [] ∨ ∃ e ∈ entries, Fired plans status e.signal) :
    (status o.id).isSome = true := by
  have hExpected := h.expected hStation
  have hGrouped : Arrival.group entries = [] ∨
      ∃ arrival ∈ Arrival.group entries, SomeFired plans status arrival.signals := by
    rcases hFired with hNone | ⟨e, hEntry, hFired⟩
    · exact Or.inl (Arrival.group_eq_nil_iff.mpr hNone)
    · -- The signal itself may have been dropped for one with the same key.
      obtain ⟨arrival, hArrival, -, other, hOther, hKey⟩ := Arrival.exists_mem_group hEntry
      have hCore := Signal.core_eq_of_key hKey
      exact Or.inr ⟨arrival, hArrival, other, hOther, fired_of_core hCore.symm hFired⟩
  have hHolds := hStation.awaits.holds_of_fired h.wired hRun hFree hExpected hGrouped
  rw [← hStation.rule] at hHolds
  refine (hRun.runs o hStation.mem).mpr ⟨hHolds, fun hDummy => ?_⟩
  unfold Operator.isDummy at hDummy
  split at hDummy
  next hBody => exact absurd hBody hStation.body
  next => cases hDummy

end Assembled

end WorkflowDag
