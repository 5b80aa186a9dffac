import WorkflowDag.Dag.Name
import WorkflowDag.Proofs.GraphSignals
import WorkflowDag.Proofs.LayoutOrder
import WorkflowDag.Proofs.Lexemes

/-!
# The names of operators and of their variables

The ids of operators are made of the names of nodes, which are not empty, so they are identifiers:
those of tasks, those planned for decisions (`planBranches_identifiers`) and those of gates, whose
bases come from what operators wait on (`Draft.GrowsBy.identified`).  `Layout.Named` collects what
is known of the operators of a layout.  Their variables are identifiers as well, all different, and
none of them is a name that the module takes for something else (`DagModule.NamedApart`).
-/

namespace WorkflowDag

namespace Wiring

section Planning

/-- The dummies of cases are named after the operator of their decision. -/
theorem planCases_identifiers {id : String} (hId : isIdentifier id = true)
    (records : List CaseRecord) :
    ∀ taken n, ∀ name ∈ (planCases id taken n records).1, isIdentifier name = true := by
  induction records with
  | nil => exact fun _ _ _ hMem => absurd hMem List.not_mem_nil
  | cons record rest ih =>
      intro taken n
      have hBase : isIdentifier (id ++ "_case_" ++ Text.decimal (n + 1)) = true :=
        isIdentifier_append (isIdentifier_append hId (Text.forall_units rfl))
          isIdUnit_of_mem_decimal
      exact List.forall_mem_cons.mpr ⟨isIdentifier_freeName taken hBase, ih _ (n + 1)⟩

theorem planBranch_identifiers {taken taken' : List String} {record : ResolvedDecision}
    {plan : BranchPlan} (hName : record.decision ≠ "")
    (hPlan : planBranch taken record = (plan, taken')) :
    ∀ id ∈ plan.ids, isIdentifier id = true := by
  have hId : isIdentifier (freeName taken (Task.idOf record.decision)) = true :=
    isIdentifier_freeName taken (isIdentifier_idOf hName)
  cases hPlan
  refine List.forall_mem_cons.mpr ⟨hId, List.forall_mem_append.mpr ⟨?_, ?_⟩⟩
  · exact planCases_identifiers hId record.cases _ 0
  · refine List.forall_mem_singleton.mpr (isIdentifier_freeName _ ?_)
    exact isIdentifier_append hId (Text.forall_units rfl)

/-- The ids planned for decisions are identifiers. -/
theorem planBranches_identifiers {g : TaskGraph} (decisions : List String)
    (hNames : ∀ decision ∈ decisions, decision ≠ "") :
    ∀ {taken taken' : List String} {plans : List BranchPlan},
      planBranches g taken decisions = .ok (plans, taken') →
      ∀ plan ∈ plans, ∀ id ∈ plan.ids, isIdentifier id = true := by
  induction decisions with
  | nil =>
      intro taken taken' plans hPlans
      cases hPlans
      exact fun _ hMem => absurd hMem List.not_mem_nil
  | cons decision rest ih =>
      intro taken taken' plans hPlans
      obtain ⟨hName, hRest⟩ := List.forall_mem_cons.mp hNames
      unfold planBranches at hPlans
      cases hRecord : g.recordOf? decision with
      | none =>
          rw [hRecord] at hPlans
          cases hPlans
      | some record =>
          rw [hRecord] at hPlans
          obtain ⟨⟨others, last⟩, hOthers, hPlans⟩ := bind_eq_ok_iff.mp hPlans
          cases hPlans
          have hDecision := (TaskGraph.mem_of_recordOf? hRecord).2
          exact List.forall_mem_cons.mpr
            ⟨planBranch_identifiers (hDecision ▸ hName) rfl, ih hRest hOthers⟩

end Planning

/-- The ids of all operators of the draft are identifiers. -/
def Draft.Identified (d : Draft) : Prop :=
  ∀ o ∈ d.operators, isIdentifier o.id = true

section Wired

variable {g : TaskGraph} {plans : List BranchPlan}

theorem Draft.GrowsBy.identified {d d' : Draft}
    (hGrows : d.GrowsBy (fun base => isIdentifier base = true) d') (hOld : d.Identified) :
    d'.Identified := by
  induction hGrows with
  | refl => exact hOld
  | tail _ hStep ih =>
      obtain ⟨key, base, predecessors, rule, hBase, -, rfl⟩ := hStep
      refine List.forall_mem_append.mpr ⟨ih, List.forall_mem_singleton.mpr ?_⟩
      exact isIdentifier_freeName _ hBase

theorem wireBranches_identified (rest : List BranchPlan)
    (hBases : ∀ plan ∈ rest, ∀ arrival ∈ Arrival.group (g.signalsInto plan.record.decision),
      BasesOf (fun base => isIdentifier base = true) arrival) :
    ∀ {d d' : Draft} {operators : List Operator},
      wireBranches g plans d rest = .ok (operators, d') → d.Identified → d'.Identified := by
  induction rest with
  | nil =>
      intro d d' operators hWire hOld
      cases hWire
      exact hOld
  | cons plan rest ih =>
      intro d d' operators hWire hOld
      obtain ⟨hOwn, hRest⟩ := List.forall_mem_cons.mp hBases
      obtain ⟨⟨predecessors, d1⟩, hFirst, hWire⟩ := bind_eq_ok_iff.mp hWire
      obtain ⟨⟨others, d2⟩, hOthers, hWire⟩ := bind_eq_ok_iff.mp hWire
      cases hWire
      exact ih hRest hOthers ((predecessorsOf_growsBy hOwn hFirst).identified hOld)

theorem wireTasks_identified (tasks : List Task)
    (hIds : ∀ task ∈ tasks, isIdentifier task.id = true)
    (hBases : ∀ task ∈ tasks, ∀ arrival ∈ arrivals task.dependencies,
      BasesOf (fun base => isIdentifier base = true) arrival) :
    ∀ {d d' : Draft}, wireTasks plans d tasks = .ok d' → d.Identified → d'.Identified := by
  induction tasks with
  | nil =>
      intro d d' hWire hOld
      cases hWire
      exact hOld
  | cons task rest ih =>
      intro d d' hWire hOld
      obtain ⟨hId, hIds⟩ := List.forall_mem_cons.mp hIds
      obtain ⟨hOwn, hRest⟩ := List.forall_mem_cons.mp hBases
      obtain ⟨⟨predecessors, d1⟩, hFirst, hWire⟩ := bind_eq_ok_iff.mp hWire
      have hGates := (predecessorsOf_growsBy hOwn hFirst).identified hOld
      exact ih hIds hRest hWire
        (List.forall_mem_append.mpr ⟨hGates, List.forall_mem_singleton.mpr hId⟩)

end Wired

end Wiring

/-- What is known of the operators of a layout: their ids are identifiers, each of its own, and they
stand behind what they wait on. -/
structure Layout.Named (order : List Operator) : Prop where
  identifiers : ∀ o ∈ order, isIdentifier o.id = true
  distinct : (order.map Operator.id).Nodup
  inOrder : InOrder [] order

namespace Transformed

variable {w : Workflow} {options : TaskOptions} {g : TaskGraph}

theorem isIdentifier_of_find? (hChecked : w.Checked) {name : String} {node : Node}
    (hFind : Workflow.find? w.nodes name = some node) : isIdentifier (Task.idOf name) = true := by
  refine isIdentifier_idOf ?_
  rw [← Workflow.name_of_find? hFind]
  exact hChecked.named.nonempty node (Workflow.mem_of_find? hFind)

/-- The gates behind what control paths bring are named after nodes. -/
theorem basesOf_group (hChecked : w.Checked) {name : String} {entries : List JoinedSignal}
    (hBrings : ∀ e ∈ entries, w.Brings (some e.signal) e.join name) {arrival : Arrival}
    (hArrival : arrival ∈ Arrival.group entries) :
    Wiring.BasesOf (fun base => isIdentifier base = true) arrival := by
  have hSound : ∀ signal ∈ arrival.signals, w.Brings (some signal) arrival.join name :=
    fun signal hSignal => hBrings _ (Arrival.mem_of_mem_group hArrival hSignal)
  constructor
  · intro task hFailure
    obtain ⟨sender, hSent, -⟩ := (hSound _ hFailure).exists_sentFrom _ rfl
    obtain ⟨rfl, a, hFind⟩ := hSent.exists_action (Or.inr rfl)
    exact isIdentifier_append (isIdentifier_of_find? hChecked hFind) (Text.forall_units rfl)
  · obtain ⟨signal, hSignal⟩ :=
      List.exists_mem_of_ne_nil _ (Arrival.signals_ne_nil_of_mem_group hArrival)
    cases hJoin : arrival.join with
    | none => decide
    | some join =>
        obtain ⟨joinName, target, hFind⟩ := (hSound signal hSignal).exists_join join hJoin
        exact isIdentifier_of_find? hChecked hFind

theorem named_of_layout (hTransformed : Transformed w options g) (hChecked : w.Checked)
    {order : List Operator} (hLayout : g.layout = .ok order) : Layout.Named order := by
  obtain ⟨operators, hOperators, hOrder⟩ := bind_eq_ok_iff.mp hLayout
  obtain ⟨⟨plans, taken⟩, hPlans, hOperators⟩ := bind_eq_ok_iff.mp hOperators
  obtain ⟨⟨branches, d⟩, hBranches, hOperators⟩ := bind_eq_ok_iff.mp hOperators
  obtain ⟨d', hTasks, hOperators⟩ := bind_eq_ok_iff.mp hOperators
  cases hOperators
  -- A layout permutes what the wiring has made: branches, tasks and the gates in front of either.
  have hDistinct := Wiring.distinct_of_wiring hTransformed.ids hPlans hBranches hTasks
  have hPerm : order.Perm (branches ++ d'.operators) := Layout.place_perm order hDistinct hOrder
  have hPlanned : ∀ plan ∈ plans, ∀ id ∈ plan.ids, isIdentifier id = true := by
    refine Wiring.planBranches_identifiers _ (fun decision hPassed => ?_) hPlans
    obtain ⟨-, node, hFind⟩ := hTransformed.decision_of_passed hPassed
    rw [← Workflow.name_of_find? hFind]
    exact hChecked.named.nonempty _ (Workflow.mem_of_find? hFind)
  have hBranchIds : ∀ o ∈ branches, isIdentifier o.id = true := by
    intro o hMem
    have hId : o.id ∈ branches.map Operator.id := List.mem_map_of_mem hMem
    rw [Wiring.wireBranches_ids plans hBranches] at hId
    obtain ⟨plan, hPlan, hOwn⟩ := List.mem_flatMap.mp hId
    exact hPlanned plan hPlan o.id hOwn
  have hGates : d.Identified := by
    refine Wiring.wireBranches_identified plans ?_ hBranches
      fun _ hMem => absurd hMem List.not_mem_nil
    exact fun plan _ arrival hArrival =>
      basesOf_group hChecked (fun e he => hTransformed.brings_of_signalInto he) hArrival
  have hOthers : d'.Identified := by
    refine Wiring.wireTasks_identified g.tasks ?_ ?_ hTasks hGates
    · intro task hTask
      obtain ⟨node, owner, hFind, -⟩ := (hTransformed.sound task hTask).owned
      rw [(hTransformed.sound task hTask).id]
      exact isIdentifier_of_find? hChecked hFind
    · exact fun task hTask arrival hArrival => basesOf_group hChecked
        (fun e he => hTransformed.brings_of_joinedSignal hTask he) hArrival
  refine ⟨fun o hMem => ?_, (hPerm.map Operator.id).nodup_iff.mpr hDistinct,
    Layout.place_inOrder order hOrder⟩
  exact (List.mem_append.mp (hPerm.mem_iff.mp hMem)).elim (hBranchIds o) (hOthers o)

end Transformed

namespace DagModule

/-- The variables of operators, in the order of the operators. -/
def operatorVariables (order : List Operator) (imported : List Import) : List String :=
  order.map fun o => variableOf (operatorNames order imported) o.id

/-- The variables are identifiers, each of its own, and none is a name that is taken. -/
structure NamedApart (taken names : List String) : Prop where
  identifiers : ∀ name ∈ names, isIdentifier name = true
  distinct : names.Nodup
  free : ∀ name ∈ names, name ∉ taken

/-- Operators are named one after the other, each apart from those before it. -/
theorem nameOperators_spec (reserved : List String) (order : List Operator)
    (hIds : ∀ o ∈ order, isIdentifier o.id = true) :
    ∀ taken, (nameOperators reserved taken order).map Prod.fst = order.map Operator.id ∧
      NamedApart taken ((nameOperators reserved taken order).map Prod.snd) := by
  -- The names taken grow with each operator; the reserved ones, which decide the base, do not.
  induction order with
  | nil =>
      exact fun taken => ⟨rfl, fun _ hMem => absurd hMem List.not_mem_nil, List.nodup_nil,
        fun _ hMem => absurd hMem List.not_mem_nil⟩
  | cons o rest ih =>
      intro taken
      obtain ⟨hId, hRest⟩ := List.forall_mem_cons.mp hIds
      have hBase :
          isIdentifier (if reserved.contains o.id then o.id ++ "_task" else o.id) = true := by
        split
        · exact isIdentifier_append hId (Text.forall_units rfl)
        · exact hId
      rw [nameOperators]
      obtain ⟨hFirst, hApart⟩ := ih hRest
        (freeName taken (if reserved.contains o.id then o.id ++ "_task" else o.id) :: taken)
      refine ⟨congrArg (o.id :: ·) hFirst, ?_, ?_, ?_⟩
      · exact List.forall_mem_cons.mpr ⟨isIdentifier_freeName taken hBase, hApart.identifiers⟩
      · refine List.nodup_cons.mpr ⟨fun hMem => ?_, hApart.distinct⟩
        exact hApart.free _ hMem List.mem_cons_self
      · refine List.forall_mem_cons.mpr ⟨freeName_notMem taken _, fun name hMem hTaken => ?_⟩
        exact hApart.free name hMem (List.mem_cons_of_mem _ hTaken)

/-- With distinct ids, every id is looked up under its own entry. -/
theorem map_variableOf {names : List (String × String)} (hIds : (names.map Prod.fst).Nodup) :
    (names.map Prod.fst).map (variableOf names) = names.map Prod.snd := by
  rw [List.map_map]
  refine List.map_congr_left fun entry hEntry => ?_
  have hFind : names.find? (fun other => other.1 == entry.1) = some entry := by
    cases hFound : names.find? fun other => other.1 == entry.1 with
    | none => exact absurd (beq_self_eq_true entry.1) (List.find?_eq_none.mp hFound entry hEntry)
    | some other =>
        have hKey := List.find?_some hFound
        rw [beq_iff_eq] at hKey
        rw [List.inj_on_of_nodup_map hIds (List.mem_of_find?_eq_some hFound) hEntry hKey]
  rw [Function.comp_apply, variableOf, hFind]
  rfl

/-- The variables of the operators of a layout are named apart from what the module takes. -/
theorem namedApart_operatorVariables {order : List Operator} (hNamed : Layout.Named order)
    (imported : List Import) :
    NamedApart (takenNames imported) (operatorVariables order imported) := by
  obtain ⟨hIds, hApart⟩ := nameOperators_spec (takenNames imported) order hNamed.identifiers
    (takenNames imported)
  have hVariables : operatorVariables order imported =
      (nameOperators (takenNames imported) (takenNames imported) order).map Prod.snd := by
    rw [← map_variableOf (hIds ▸ hNamed.distinct), hIds, List.map_map]
    rfl
  rw [hVariables]
  exact hApart

end DagModule

end WorkflowDag
