import Mathlib.Data.List.Forall2
import Mathlib.Logic.Relation
import WorkflowDag.Proofs.Arrivals
import WorkflowDag.Proofs.OperatorIds

/-!
# What operators wait on

Wiring turns the arrivals of an operator into the ids it waits on and makes gates on the way.
`Awaits` says what these ids are, in terms of the operators made in the end: ids that relay a signal
(`Relays`), or gates behind which the signals of a join are gathered (`Gates`).

A draft only ever grows by gates (`Draft.Grows`), and its gates stay what their keys say
(`Draft.Right`): that a gate is shared by all who ask for the same key is the point at which keys
have to show what they were made of.  `predecessorsOf_spec` collects this for one operator.
-/

namespace WorkflowDag
namespace Wiring

/-- The operator of that id succeeds when the signal comes. -/
def Relays (plans : List BranchPlan) (operators : List Operator) : Signal → String → Prop
  | .failure task, id => ⟨id, .dummy, id, [task], .oneFailed⟩ ∈ operators
  | signal, id => sender plans signal = .ok id

/-- The operator of that id is a gate behind which the signals are gathered. -/
def Gates (plans : List BranchPlan) (operators : List Operator) (signals : List Signal)
    (id : String) : Prop :=
  ∃ ids, List.Forall₂ (Relays plans operators) signals ids ∧
    ⟨id, .dummy, id, ids.eraseDups, .noneFailedMinOneSuccess⟩ ∈ operators

/-- The operator of that id succeeds when control arrives in this way. -/
def Enters (plans : List BranchPlan) (operators : List Operator) (arrival : Arrival)
    (id : String) : Prop :=
  (∃ signal, arrival.signals = [signal] ∧ Relays plans operators signal id) ∨
    Gates plans operators arrival.signals id

/-- The ids that an operator with these arrivals waits on. -/
inductive Awaits (plans : List BranchPlan) (operators : List Operator) :
    List Arrival → List String → Prop
  | failures {found : List Arrival} {ids : List String}
      (hRule : TriggerRule.ofArrivals found = .oneFailed)
      (hSenders : List.Forall₂ (fun signal id => sender plans signal = .ok id)
        (found.flatMap Arrival.signals) ids) :
      Awaits plans operators found ids.eraseDups
  | single {only : Arrival} {ids : List String}
      (hRule : TriggerRule.ofArrivals [only] ≠ .oneFailed)
      (hRelays : List.Forall₂ (Relays plans operators) only.signals ids) :
      Awaits plans operators [only] ids.eraseDups
  | several {found : List Arrival} {ids : List String}
      (hRule : TriggerRule.ofArrivals found ≠ .oneFailed) (hFound : ∀ only, found ≠ [only])
      (hEnters : List.Forall₂ (Enters plans operators) found ids) :
      Awaits plans operators found ids.eraseDups

section Monotone

variable {plans : List BranchPlan} {operators more : List Operator}

theorem Relays.mono (hMore : operators ⊆ more) {signal : Signal} {id : String}
    (hRelays : Relays plans operators signal id) : Relays plans more signal id := by
  cases signal with
  | success task => exact hRelays
  | failure task => exact hMore hRelays
  | branch step => exact hRelays

theorem Gates.mono (hMore : operators ⊆ more) {signals : List Signal} {id : String}
    (hGates : Gates plans operators signals id) : Gates plans more signals id := by
  obtain ⟨ids, hRelays, hGate⟩ := hGates
  exact ⟨ids, hRelays.imp fun _ _ => Relays.mono hMore, hMore hGate⟩

theorem Enters.mono (hMore : operators ⊆ more) {arrival : Arrival} {id : String}
    (hEnters : Enters plans operators arrival id) : Enters plans more arrival id := by
  rcases hEnters with ⟨signal, hSignal, hRelays⟩ | hGates
  · exact Or.inl ⟨signal, hSignal, hRelays.mono hMore⟩
  · exact Or.inr (hGates.mono hMore)

theorem Awaits.mono (hMore : operators ⊆ more) {found : List Arrival} {ids : List String}
    (hAwaits : Awaits plans operators found ids) : Awaits plans more found ids := by
  cases hAwaits with
  | failures hRule hSenders => exact .failures hRule hSenders
  | single hRule hRelays => exact .single hRule (hRelays.imp fun _ _ => Relays.mono hMore)
  | several hRule hFound hEnters =>
      exact .several hRule hFound (hEnters.imp fun _ _ => Enters.mono hMore)

end Monotone

/-- Signals with the same core are relayed by the same operators. -/
theorem relays_core {plans : List BranchPlan} {operators : List Operator} (signal : Signal)
    (id : String) : Relays plans operators signal.core id ↔ Relays plans operators signal id := by
  cases signal with
  | success task => exact Iff.rfl
  | failure task => exact Iff.rfl
  | branch step => exact Iff.rfl

/-- Signals with the same cores are gathered behind the same gates. -/
theorem Gates.of_cores {plans : List BranchPlan} {operators : List Operator}
    {signals others : List Signal} {id : String}
    (hCores : signals.map Signal.core = others.map Signal.core)
    (hGates : Gates plans operators signals id) : Gates plans operators others id := by
  obtain ⟨ids, hRelays, hGate⟩ := hGates
  have hShown : List.Forall₂ (Relays plans operators) (signals.map Signal.core) ids := by
    rw [List.forall₂_map_left_iff]
    exact hRelays.imp fun signal id => (relays_core signal id).mpr
  rw [hCores, List.forall₂_map_left_iff] at hShown
  exact ⟨ids, hShown.imp fun signal id => (relays_core signal id).mp, hGate⟩

/-- A signal that an operator sends, with names that keys show.  Outcomes are those of actions. -/
structure Sent (g : TaskGraph) (plans : List BranchPlan) (signal : Signal) : Prop where
  legible : signal.Legible
  sender : ∃ id, sender plans signal = .ok id
  task : ∀ task, signal = .success task ∨ signal = .failure task →
    ∃ t ∈ g.tasks, t.id = task ∧ t.body.isKill = false

/-- The operator of a task. -/
def taskOperator (task : Task) (predecessors : List String) : Operator :=
  ⟨task.id, .task task, task.source, predecessors, .ofArrivals (arrivals task.dependencies)⟩

/-- The branch operator of a decision. -/
def branchOperator (g : TaskGraph) (plan : BranchPlan) (predecessors : List String) : Operator :=
  ⟨plan.id, .branch plan.record plan.chosen, plan.record.decision, predecessors,
    .ofArrivals (Arrival.group (g.signalsInto plan.record.decision))⟩

/-- A dummy of a decision. -/
def dummyOperator (plan : BranchPlan) (id : String) : Operator :=
  ⟨id, .dummy, id, [plan.id], .allSuccess⟩

/-- The operators that wiring makes, each with what it waits on. -/
inductive Made (g : TaskGraph) (plans : List BranchPlan) (operators : List Operator) :
    Operator → Prop
  | task {task : Task} {predecessors : List String} (hTask : task ∈ g.tasks)
      (hAwaits : Awaits plans operators (arrivals task.dependencies) predecessors) :
      Made g plans operators (taskOperator task predecessors)
  | branch {plan : BranchPlan} {predecessors : List String} (hPlan : plan ∈ plans)
      (hAwaits : Awaits plans operators (Arrival.group (g.signalsInto plan.record.decision))
        predecessors) :
      Made g plans operators (branchOperator g plan predecessors)
  | dummy {plan : BranchPlan} {id : String} (hPlan : plan ∈ plans) (hId : id ∈ plan.dummies) :
      Made g plans operators (dummyOperator plan id)
  | failure {task id : String} (hSent : Sent g plans (.failure task)) :
      Made g plans operators ⟨id, .dummy, id, [task], .oneFailed⟩
  | join {id : String} {signals : List Signal} {ids : List String}
      (hSent : ∀ signal ∈ signals, Sent g plans signal)
      (hRelays : List.Forall₂ (Relays plans operators) signals ids) :
      Made g plans operators ⟨id, .dummy, id, ids.eraseDups, .noneFailedMinOneSuccess⟩

theorem Made.mono {g : TaskGraph} {plans : List BranchPlan} {operators more : List Operator}
    {o : Operator} (hMore : operators ⊆ more) (hMade : Made g plans operators o) :
    Made g plans more o := by
  cases hMade with
  | task hTask hAwaits => exact .task hTask (hAwaits.mono hMore)
  | branch hPlan hAwaits => exact .branch hPlan (hAwaits.mono hMore)
  | dummy hPlan hId => exact .dummy hPlan hId
  | failure hSent => exact .failure hSent
  | join hSent hRelays => exact .join hSent (hRelays.imp fun _ _ => Relays.mono hMore)

namespace Draft

/-- The second draft is the first with some gates added.  No gate waits for all to succeed. -/
def Grows : Draft → Draft → Prop :=
  Relation.ReflTransGen fun d d' =>
    ∃ key base predecessors rule, rule ≠ .allSuccess ∧ d' = d.addGate key base predecessors rule

theorem Grows.operators_subset {d d' : Draft} (hGrows : d.Grows d') :
    d.operators ⊆ d'.operators := by
  induction hGrows with
  | refl => exact List.Subset.refl _
  | tail _ hStep ih =>
      obtain ⟨key, base, predecessors, rule, -, rfl⟩ := hStep
      exact List.Subset.trans ih (List.subset_append_left _ _)

/-- The ids reserved and those of the operators are all taken, and no two are the same. -/
structure Distinct (reserved : List String) (d : Draft) : Prop where
  taken : ∀ id ∈ reserved ++ d.operators.map Operator.id, id ∈ d.taken
  nodup : (reserved ++ d.operators.map Operator.id).Nodup

theorem Distinct.addGate {reserved : List String} {d : Draft} (hDistinct : d.Distinct reserved)
    (key base : String) (predecessors : List String) (rule : TriggerRule) :
    (d.addGate key base predecessors rule).Distinct reserved := by
  have hIds : reserved ++ (d.addGate key base predecessors rule).operators.map Operator.id =
      (reserved ++ d.operators.map Operator.id) ++ [freeName d.taken base] := by
    simp [Draft.addGate]
  constructor
  · intro id hId
    rw [hIds] at hId
    rcases List.mem_append.mp hId with hOld | hNew
    · exact List.mem_cons_of_mem _ (hDistinct.taken id hOld)
    · rw [List.mem_singleton.mp hNew]
      exact List.mem_cons_self
  · rw [hIds, List.nodup_append]
    refine ⟨hDistinct.nodup, List.nodup_singleton _, ?_⟩
    rintro id hOld other hNew rfl
    rw [List.mem_singleton.mp hNew] at hOld
    exact freeName_notMem d.taken base (hDistinct.taken _ hOld)

theorem Grows.distinct {reserved : List String} {d d' : Draft} (hGrows : d.Grows d')
    (hDistinct : d.Distinct reserved) : d'.Distinct reserved := by
  induction hGrows with
  | refl => exact hDistinct
  | tail _ hStep ih =>
      obtain ⟨key, base, predecessors, rule, -, rfl⟩ := hStep
      exact ih.addGate key base predecessors rule

/-- The second draft is the first with some gates added, whose names are made of such bases. -/
def GrowsBy (Base : String → Prop) : Draft → Draft → Prop :=
  Relation.ReflTransGen fun d d' =>
    ∃ key base predecessors rule, Base base ∧ rule ≠ .allSuccess ∧
      d' = d.addGate key base predecessors rule

theorem GrowsBy.grows {Base : String → Prop} {d d' : Draft} (hGrows : d.GrowsBy Base d') :
    d.Grows d' := by
  refine Relation.ReflTransGen.mono ?_ _ _ hGrows
  rintro _ _ ⟨key, base, predecessors, rule, -, hRule, hGate⟩
  exact ⟨key, base, predecessors, rule, hRule, hGate⟩

theorem gate_growsBy {Base : String → Prop} {d d' : Draft} {key base id : String}
    {predecessors : List String} {rule : TriggerRule} (hBase : Base base)
    (hRule : rule ≠ .allSuccess) (hGate : d.gate key base predecessors rule = (id, d')) :
    d.GrowsBy Base d' := by
  unfold Draft.gate at hGate
  split at hGate
  · cases hGate
    exact Relation.ReflTransGen.refl
  · cases hGate
    exact Relation.ReflTransGen.single ⟨key, base, predecessors, rule, hBase, hRule, rfl⟩

theorem mem_gates_of_gate? {d : Draft} {key id : String} (hGate : d.gate? key = some id) :
    (key, id) ∈ d.gates := by
  unfold Draft.gate? at hGate
  rw [Option.filter_eq_some_iff, Option.map_eq_some_iff] at hGate
  obtain ⟨⟨⟨other, found⟩, hFind, rfl⟩, -⟩ := hGate
  have hKey := List.find?_some hFind
  rw [beq_iff_eq] at hKey
  exact hKey ▸ List.mem_of_find?_eq_some hFind

end Draft

section Growth

variable {plans : List BranchPlan} {Base : String → Prop} {d d' : Draft}

theorem relay_growsBy {signal : Signal} {id : String}
    (hFailure : ∀ task, signal = .failure task → Base (task ++ "_failed"))
    (hRelay : relay plans d signal = .ok (id, d')) : d.GrowsBy Base d' := by
  cases signal with
  | success task =>
      cases hRelay
      exact Relation.ReflTransGen.refl
  | failure task =>
      exact Draft.gate_growsBy (hFailure task rfl) (by decide) (Except.ok.inj hRelay)
  | branch step =>
      obtain ⟨found, -, hSame⟩ := map_eq_ok_iff.mp hRelay
      cases hSame
      exact Relation.ReflTransGen.refl

theorem relays_growsBy (signals : List Signal)
    (hFailures : ∀ task, .failure task ∈ signals → Base (task ++ "_failed")) :
    ∀ {d d' : Draft} {ids : List String}, relays plans d signals = .ok (ids, d') →
      d.GrowsBy Base d' := by
  induction signals with
  | nil =>
      intro d d' ids hRelays
      cases hRelays
      exact Relation.ReflTransGen.refl
  | cons signal rest ih =>
      intro d d' ids hRelays
      obtain ⟨⟨first, d1⟩, hFirst, hRelays⟩ := bind_eq_ok_iff.mp hRelays
      obtain ⟨⟨others, d2⟩, hOthers, hRelays⟩ := bind_eq_ok_iff.mp hRelays
      cases hRelays
      have hGate := relay_growsBy
        (fun task hTask => hFailures task (hTask ▸ List.mem_cons_self)) hFirst
      exact hGate.trans
        (ih (fun task hTask => hFailures task (List.mem_cons_of_mem _ hTask)) hOthers)

/-- The bases from which the gates of an arrival may be named. -/
structure BasesOf (Base : String → Prop) (arrival : Arrival) : Prop where
  failures : ∀ task, .failure task ∈ arrival.signals → Base (task ++ "_failed")
  join : Base (Task.idOf (arrival.join.getD "join"))

theorem gateOfJoin_growsBy {arrival : Arrival} {id : String} (hBases : BasesOf Base arrival)
    (hGate : gateOfJoin plans d arrival = .ok (id, d')) : d.GrowsBy Base d' := by
  obtain ⟨⟨ids, d1⟩, hRelays, hGate⟩ := bind_eq_ok_iff.mp hGate
  have hFailures := relays_growsBy arrival.signals hBases.failures hRelays
  exact hFailures.trans (Draft.gate_growsBy hBases.join (by decide) (Except.ok.inj hGate))

theorem entrance_growsBy {arrival : Arrival} {id : String} (hBases : BasesOf Base arrival)
    (hEntrance : entrance plans d arrival = .ok (id, d')) : d.GrowsBy Base d' := by
  unfold entrance at hEntrance
  split at hEntrance
  next signal hSignal =>
    refine relay_growsBy (fun task hTask => hBases.failures task ?_) hEntrance
    rw [hSignal, hTask]
    exact List.mem_singleton.mpr rfl
  · exact gateOfJoin_growsBy hBases hEntrance

theorem entrances_growsBy (found : List Arrival)
    (hBases : ∀ arrival ∈ found, BasesOf Base arrival) :
    ∀ {d d' : Draft} {ids : List String}, entrances plans d found = .ok (ids, d') →
      d.GrowsBy Base d' := by
  induction found with
  | nil =>
      intro d d' ids hEntrances
      cases hEntrances
      exact Relation.ReflTransGen.refl
  | cons arrival rest ih =>
      intro d d' ids hEntrances
      obtain ⟨⟨first, d1⟩, hFirst, hEntrances⟩ := bind_eq_ok_iff.mp hEntrances
      obtain ⟨⟨others, d2⟩, hOthers, hEntrances⟩ := bind_eq_ok_iff.mp hEntrances
      cases hEntrances
      obtain ⟨hOwn, hRest⟩ := List.forall_mem_cons.mp hBases
      exact (entrance_growsBy hOwn hFirst).trans (ih hRest hOthers)

/-- Wiring one operator only adds gates. -/
theorem predecessorsOf_growsBy {found : List Arrival} {ids : List String}
    (hBases : ∀ arrival ∈ found, BasesOf Base arrival)
    (hFound : predecessorsOf plans d found = .ok (ids, d')) : d.GrowsBy Base d' := by
  unfold predecessorsOf at hFound
  split at hFound
  · obtain ⟨senderIds, -, hSame⟩ := map_eq_ok_iff.mp hFound
    cases hSame
    exact Relation.ReflTransGen.refl
  next hRule =>
    split at hFound
    next only =>
      obtain ⟨⟨relayIds, d1⟩, hRelays, hSame⟩ := map_eq_ok_iff.mp hFound
      cases hSame
      exact relays_growsBy _ (hBases only (List.mem_singleton.mpr rfl)).failures hRelays
    · obtain ⟨⟨entranceIds, d1⟩, hEntrances, hSame⟩ := map_eq_ok_iff.mp hFound
      cases hSame
      exact entrances_growsBy _ hBases hEntrances

-- Where the names of gates do not matter, any base will do.

theorem relays_grows (signals : List Signal) {ids : List String}
    (hRelays : relays plans d signals = .ok (ids, d')) : d.Grows d' := by
  have hGrows : d.GrowsBy (fun _ => True) d' := relays_growsBy signals (fun _ _ => trivial) hRelays
  exact hGrows.grows

theorem entrances_grows (found : List Arrival) {ids : List String}
    (hEntrances : entrances plans d found = .ok (ids, d')) : d.Grows d' := by
  have hGrows : d.GrowsBy (fun _ => True) d' :=
    entrances_growsBy found (fun _ _ => ⟨fun _ _ => trivial, trivial⟩) hEntrances
  exact hGrows.grows

theorem predecessorsOf_grows {found : List Arrival} {ids : List String}
    (hFound : predecessorsOf plans d found = .ok (ids, d')) : d.Grows d' := by
  have hGrows : d.GrowsBy (fun _ => True) d' :=
    predecessorsOf_growsBy (fun _ _ => ⟨fun _ _ => trivial, trivial⟩) hFound
  exact hGrows.grows

end Growth

/-- Every operator of the draft is one that wiring makes, and every gate is what its key says. -/
structure Draft.Right (g : TaskGraph) (plans : List BranchPlan) (d : Draft) : Prop where
  made : ∀ o ∈ d.operators, Made g plans d.operators o
  failures : ∀ task id, (failureKey task, id) ∈ d.gates →
    Relays plans d.operators (.failure task) id
  joins : ∀ join signals id, Legible join → (∀ signal ∈ signals, signal.Legible) →
    (joinKey join signals, id) ∈ d.gates → Gates plans d.operators signals id

namespace Draft.Right

variable {g : TaskGraph} {plans : List BranchPlan} {d : Draft}

/-- A gate that is made as its key says keeps the draft right. -/
theorem addGate {key base : String} {predecessors : List String} {rule : TriggerRule}
    (hRight : d.Right g plans)
    (hMade : Made g plans (d.addGate key base predecessors rule).operators
      ⟨freeName d.taken base, .dummy, freeName d.taken base, predecessors, rule⟩)
    (hFailure : ∀ task, failureKey task = key →
      Relays plans (d.addGate key base predecessors rule).operators (.failure task)
        (freeName d.taken base))
    (hJoin : ∀ join signals, Legible join → (∀ signal ∈ signals, signal.Legible) →
      joinKey join signals = key →
      Gates plans (d.addGate key base predecessors rule).operators signals
        (freeName d.taken base)) :
    (d.addGate key base predecessors rule).Right g plans := by
  have hMore : d.operators ⊆ (d.addGate key base predecessors rule).operators :=
    List.subset_append_left _ _
  constructor
  · intro o hMem
    rcases List.mem_append.mp hMem with hOld | hNew
    · exact (hRight.made o hOld).mono hMore
    · rw [List.mem_singleton.mp hNew]
      exact hMade
  · intro task id hMem
    rcases List.mem_cons.mp hMem with hNew | hOld
    · obtain ⟨hKey, rfl⟩ := Prod.mk.inj hNew
      exact hFailure task hKey
    · exact (hRight.failures task id hOld).mono hMore
  · intro join signals id hLegible hSignals hMem
    rcases List.mem_cons.mp hMem with hNew | hOld
    · obtain ⟨hKey, rfl⟩ := Prod.mk.inj hNew
      exact hJoin join signals hLegible hSignals hKey
    · exact (hRight.joins join signals id hLegible hSignals hOld).mono hMore

/-- The gate of a failure relays it. -/
theorem failureGate {task id : String} {d' : Draft} (hRight : d.Right g plans)
    (hSent : Sent g plans (.failure task))
    (hGate : d.gate (failureKey task) (task ++ "_failed") [task] .oneFailed = (id, d')) :
    d'.Right g plans ∧ Relays plans d'.operators (.failure task) id := by
  unfold Draft.gate at hGate
  split at hGate
  next known hKnown =>
    cases hGate
    exact ⟨hRight, hRight.failures task _ (Draft.mem_gates_of_gate? hKnown)⟩
  next =>
    cases hGate
    have hOwn : Relays plans (d.addGate (failureKey task) (task ++ "_failed") [task]
        .oneFailed).operators (.failure task) (freeName d.taken (task ++ "_failed")) :=
      List.mem_append_right _ (List.mem_singleton.mpr rfl)
    refine ⟨hRight.addGate (.failure hSent) ?_ ?_, hOwn⟩
    · intro other hKey
      rw [failureKey_injective hKey]
      exact hOwn
    · exact fun join signals _ _ hKey => absurd hKey.symm (failureKey_ne_joinKey _ _ _)

/-- The gate of a join gathers its signals. -/
theorem joinGate {join base id : String} {signals : List Signal} {ids : List String} {d' : Draft}
    (hRight : d.Right g plans) (hJoin : Legible join)
    (hSent : ∀ signal ∈ signals, Sent g plans signal)
    (hRelays : List.Forall₂ (Relays plans d.operators) signals ids)
    (hGate : d.gate (joinKey join signals) base ids.eraseDups .noneFailedMinOneSuccess =
      (id, d')) :
    d'.Right g plans ∧ Gates plans d'.operators signals id := by
  have hLegible : ∀ signal ∈ signals, signal.Legible :=
    fun signal hSignal => (hSent signal hSignal).legible
  unfold Draft.gate at hGate
  split at hGate
  next known hKnown =>
    cases hGate
    exact ⟨hRight, hRight.joins join signals _ hJoin hLegible (Draft.mem_gates_of_gate? hKnown)⟩
  next =>
    cases hGate
    have hMore : d.operators ⊆ (d.addGate (joinKey join signals) base ids.eraseDups
        .noneFailedMinOneSuccess).operators := List.subset_append_left _ _
    have hLater := hRelays.imp fun _ _ => Relays.mono hMore
    have hOwn : Gates plans (d.addGate (joinKey join signals) base ids.eraseDups
        .noneFailedMinOneSuccess).operators signals (freeName d.taken base) :=
      ⟨ids, hLater, List.mem_append_right _ (List.mem_singleton.mpr rfl)⟩
    refine ⟨hRight.addGate (.join hSent hLater) ?_ ?_, hOwn⟩
    · exact fun task hKey => absurd hKey (failureKey_ne_joinKey _ _ _)
    · intro other otherSignals hOther hOthers hKey
      -- Whoever asks for this key again asks for the same signals.
      exact hOwn.of_cores (joinKey_inj hOther hJoin hOthers hLegible hKey).2.symm

end Draft.Right

/-- An arrival whose signals are all sent, at a join whose name keys show. -/
structure Expected (g : TaskGraph) (plans : List BranchPlan) (arrival : Arrival) : Prop where
  sent : ∀ signal ∈ arrival.signals, Sent g plans signal
  join : LegibleName arrival.join

section Specification

variable {g : TaskGraph} {plans : List BranchPlan}

theorem senders_spec (signals : List Signal)
    (hSenders : ∀ signal ∈ signals, ∃ id, sender plans signal = .ok id) :
    ∃ ids, senders plans signals = .ok ids ∧
      List.Forall₂ (fun signal id => sender plans signal = .ok id) signals ids := by
  induction signals with
  | nil => exact ⟨[], rfl, .nil⟩
  | cons signal rest ih =>
      obtain ⟨id, hId⟩ := hSenders signal List.mem_cons_self
      obtain ⟨ids, hIds, hAll⟩ :=
        ih fun other hMem => hSenders other (List.mem_cons_of_mem _ hMem)
      refine ⟨id :: ids, ?_, .cons hId hAll⟩
      exact bind_eq_ok_iff.mpr ⟨id, hId, bind_eq_ok_iff.mpr ⟨ids, hIds, rfl⟩⟩

theorem relay_spec {d : Draft} {signal : Signal} (hRight : d.Right g plans)
    (hSent : Sent g plans signal) :
    ∃ id d', relay plans d signal = .ok (id, d') ∧ d'.Right g plans ∧
      Relays plans d'.operators signal id := by
  obtain ⟨id, hId⟩ := hSent.sender
  cases signal with
  | success task => exact ⟨task, d, rfl, hRight, rfl⟩
  | failure task =>
      obtain ⟨hLater, hRelays⟩ := hRight.failureGate hSent rfl
      exact ⟨_, _, rfl, hLater, hRelays⟩
  | branch step => exact ⟨id, d, map_eq_ok_iff.mpr ⟨id, hId, rfl⟩, hRight, hId⟩

theorem relays_spec (signals : List Signal) (hSent : ∀ signal ∈ signals, Sent g plans signal) :
    ∀ {d : Draft}, d.Right g plans → ∃ ids d', relays plans d signals = .ok (ids, d') ∧
      d'.Right g plans ∧ List.Forall₂ (Relays plans d'.operators) signals ids := by
  induction signals with
  | nil => exact fun {d} hRight => ⟨[], d, rfl, hRight, .nil⟩
  | cons signal rest ih =>
      intro d hRight
      obtain ⟨id, d1, hFirst, hRight1, hRelays⟩ :=
        relay_spec hRight (hSent signal List.mem_cons_self)
      obtain ⟨ids, d2, hOthers, hRight2, hAll⟩ :=
        ih (fun other hMem => hSent other (List.mem_cons_of_mem _ hMem)) hRight1
      refine ⟨id :: ids, d2, ?_, hRight2, .cons ?_ hAll⟩
      · exact bind_eq_ok_iff.mpr ⟨(id, d1), hFirst, bind_eq_ok_iff.mpr ⟨(ids, d2), hOthers, rfl⟩⟩
      · exact hRelays.mono (relays_grows rest hOthers).operators_subset

theorem gateOfJoin_spec {d : Draft} {arrival : Arrival} (hRight : d.Right g plans)
    (hArrival : Expected g plans arrival) :
    ∃ id d', gateOfJoin plans d arrival = .ok (id, d') ∧ d'.Right g plans ∧
      Gates plans d'.operators arrival.signals id := by
  have hJoin : Legible (arrival.join.getD "join") := by
    cases hName : arrival.join with
    | none => decide
    | some name => exact (hArrival.join name hName).1
  obtain ⟨ids, d1, hRelays, hRight1, hAll⟩ := relays_spec arrival.signals hArrival.sent hRight
  obtain ⟨hLater, hGates⟩ := hRight1.joinGate hJoin hArrival.sent hAll rfl
  exact ⟨_, _, bind_eq_ok_iff.mpr ⟨(ids, d1), hRelays, rfl⟩, hLater, hGates⟩

theorem entrance_spec {d : Draft} {arrival : Arrival} (hRight : d.Right g plans)
    (hArrival : Expected g plans arrival) :
    ∃ id d', entrance plans d arrival = .ok (id, d') ∧ d'.Right g plans ∧
      Enters plans d'.operators arrival id := by
  unfold entrance
  split
  next signal hSignals =>
    have hSent := hArrival.sent signal (hSignals ▸ List.mem_singleton.mpr rfl)
    obtain ⟨id, d', hRelay, hLater, hRelays⟩ := relay_spec hRight hSent
    exact ⟨id, d', hRelay, hLater, Or.inl ⟨signal, hSignals, hRelays⟩⟩
  next =>
    obtain ⟨id, d', hGate, hLater, hGates⟩ := gateOfJoin_spec hRight hArrival
    exact ⟨id, d', hGate, hLater, Or.inr hGates⟩

theorem entrances_spec (found : List Arrival)
    (hFound : ∀ arrival ∈ found, Expected g plans arrival) :
    ∀ {d : Draft}, d.Right g plans → ∃ ids d', entrances plans d found = .ok (ids, d') ∧
      d'.Right g plans ∧ List.Forall₂ (Enters plans d'.operators) found ids := by
  induction found with
  | nil => exact fun {d} hRight => ⟨[], d, rfl, hRight, .nil⟩
  | cons arrival rest ih =>
      intro d hRight
      obtain ⟨id, d1, hFirst, hRight1, hEnters⟩ :=
        entrance_spec hRight (hFound arrival List.mem_cons_self)
      obtain ⟨ids, d2, hOthers, hRight2, hAll⟩ :=
        ih (fun other hMem => hFound other (List.mem_cons_of_mem _ hMem)) hRight1
      refine ⟨id :: ids, d2, ?_, hRight2, .cons ?_ hAll⟩
      · exact bind_eq_ok_iff.mpr ⟨(id, d1), hFirst, bind_eq_ok_iff.mpr ⟨(ids, d2), hOthers, rfl⟩⟩
      · exact hEnters.mono (entrances_grows rest hOthers).operators_subset

/-- Wiring one operator succeeds when its signals are sent, and gives the ids it awaits. -/
theorem predecessorsOf_spec {d : Draft} {found : List Arrival} (hRight : d.Right g plans)
    (hFound : ∀ arrival ∈ found, Expected g plans arrival) :
    ∃ ids d', predecessorsOf plans d found = .ok (ids, d') ∧ d'.Right g plans ∧
      Awaits plans d'.operators found ids := by
  unfold predecessorsOf
  split
  next hRule =>
    have hSenders : ∀ signal ∈ found.flatMap Arrival.signals,
        ∃ id, sender plans signal = .ok id := by
      intro signal hSignal
      obtain ⟨arrival, hArrival, hSignal⟩ := List.mem_flatMap.mp hSignal
      exact ((hFound arrival hArrival).sent signal hSignal).sender
    obtain ⟨ids, hIds, hAll⟩ := senders_spec _ hSenders
    exact ⟨ids.eraseDups, d, map_eq_ok_iff.mpr ⟨ids, hIds, rfl⟩, hRight, .failures hRule hAll⟩
  next hRule =>
    split
    next only =>
      obtain ⟨ids, d', hIds, hLater, hAll⟩ := relays_spec only.signals
        (hFound only (List.mem_singleton.mpr rfl)).sent hRight
      exact ⟨ids.eraseDups, d', map_eq_ok_iff.mpr ⟨(ids, d'), hIds, rfl⟩, hLater,
        .single hRule hAll⟩
    next hSeveral =>
      obtain ⟨ids, d', hIds, hLater, hAll⟩ := entrances_spec found hFound hRight
      exact ⟨ids.eraseDups, d', map_eq_ok_iff.mpr ⟨(ids, d'), hIds, rfl⟩, hLater,
        .several hRule hSeveral hAll⟩

end Specification

end Wiring
end WorkflowDag
