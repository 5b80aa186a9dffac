import Mathlib.Order.Bounds.Basic
import WorkflowDag.Proofs.DependencyPaths
import WorkflowDag.Proofs.ParallelWalks

/-!
# Strict decisions

The guards of a decision are evaluated in order.  Without strict decisions the first one that holds
is the last one evaluated; with them all guards are evaluated, and several that hold are refused.
`Found` says what either way of evaluating comes to.  Where all guards can be evaluated, stopping
early finds the same one (`Found.evaluate_early`), so the two transformations of a workflow go in
parallel as long as the strict one does not fail, and differ in the values recorded behind the
selected case only (`ResolvedDecision.untilSelected`).

Main statement: `strict_decisions_conservative`.
-/

namespace WorkflowDag

/-- The value of a guard.  A variable without a value is an error, whatever the scope says. -/
def guardValue (scope : Scope) (guard : String) : Except EvalError String :=
  Template.interpolate { scope with unresolved := .error } (Text.trim guard)

/-- The guard has a value, which is neither empty nor `false`. -/
def GuardHolds (scope : Scope) (guard : String) : Prop :=
  ∃ value, guardValue scope guard = .ok value ∧ value ≠ "" ∧ value ≠ "false"

/-- The options with strict decisions or without. -/
def TaskOptions.withStrict (options : TaskOptions) (strict : Bool) : TaskOptions :=
  { options with strictDecisions := strict }

namespace ResolvedDecision

/-- The record without the values behind the selected case. -/
def untilSelected (r : ResolvedDecision) : ResolvedDecision :=
  { r with
    cases := r.cases.mapIdx fun position c =>
      if r.takenCase.any (· < position) then { c with value := none } else c }

/-- The record says what the guards of the decision select: its cases are those of the decision,
with values of their guards, and the selected one is the first whose guard holds. -/
structure Selects (r : ResolvedDecision) (scope : Scope) (d : Decision) : Prop where
  cases : r.cases.map (fun c => GuardedCase.mk c.guard c.target) = d.cases
  fallback : r.fallback = d.fallback
  values : ∀ c ∈ r.cases, ∀ value, c.value = some value → guardValue scope c.guard = .ok value
  evaluated : ∀ index c, r.cases[index]? = some c →
    (∀ taken, r.takenCase = some taken → index ≤ taken) → c.value.isSome
  taken : ∀ index, r.takenCase = some index ↔
    IsLeast {i | ∃ c, d.cases[i]? = some c ∧ GuardHolds scope c.guard} index
  untaken : r.takenCase = none ↔ ∀ c ∈ d.cases, ¬GuardHolds scope c.guard
  selected : r.selected =
    ((r.takenCase.bind fun index => d.cases[index]?).map GuardedCase.target).getD d.fallback

end ResolvedDecision

theorem holds_iff {value : String} : holds value = true ↔ value ≠ "" ∧ value ≠ "false" := by
  simp [holds]

namespace GuardChoice

/-- The guards have these values. -/
def Valued (scope : Scope) : List String → List String → Prop :=
  List.Forall₂ fun guard value => guardValue scope guard = .ok value

/-- What evaluating guards from a position on has come to: none of them holds, or the first that
does stands behind others that do not.  The guards behind it have been evaluated if all were to
be. -/
inductive Found (scope : Scope) (exhaustive : Bool) (position : Nat) :
    List String → GuardChoice → Prop
  | absent {guards values : List String} (hValued : Valued scope guards values)
      (hFail : ∀ value ∈ values, holds value = false) :
      Found scope exhaustive position guards ⟨none, values⟩
  | present {before after values behind : List String} {guard value : String}
      (hBefore : Valued scope before values) (hFail : ∀ value ∈ values, holds value = false)
      (hValue : guardValue scope guard = .ok value) (hHolds : holds value = true)
      (hBehind : Valued scope (if exhaustive then after else []) behind) :
      Found scope exhaustive position (before ++ guard :: after)
        ⟨some (position + before.length), values ++ value :: behind⟩

section

variable {scope : Scope} {exhaustive : Bool}

/-- A guard that does not hold in front of others. -/
theorem Found.cons {position : Nat} {guard value : String} {rest : List String} {c : GuardChoice}
    (hValue : guardValue scope guard = .ok value) (hFails : holds value = false)
    (hRest : Found scope exhaustive (position + 1) rest c) :
    Found scope exhaustive position (guard :: rest) ⟨c.index, value :: c.values⟩ := by
  cases hRest with
  | absent hValued hFail =>
      exact .absent (.cons hValue hValued) (List.forall_mem_cons.mpr ⟨hFails, hFail⟩)
  | @present before after values behind next held hBefore hFail hHeld hHolds hBehind =>
      have hPosition : position + 1 + before.length = position + (guard :: before).length := by
        rw [List.length_cons]
        omega
      rw [hPosition]
      exact .present (.cons hValue hBefore) (List.forall_mem_cons.mpr ⟨hFails, hFail⟩) hHeld hHolds
        hBehind

/-- Behind a guard that holds all others are evaluated, and none of them is looked for. -/
theorem valued_of_evaluate (guards : List String) :
    ∀ {position first : Nat} {c : GuardChoice},
      evaluate { scope with unresolved := .error } exhaustive position (some first) guards = .ok c →
      ∃ values, Valued scope guards values ∧ c = ⟨some first, values⟩ := by
  induction guards with
  | nil =>
      intro position first c hChoice
      cases hChoice
      exact ⟨[], .nil, rfl⟩
  | cons guard rest ih =>
      intro position first c hChoice
      obtain ⟨value, hValue, hChoice⟩ := bind_eq_ok_iff.mp hChoice
      obtain ⟨others, hOthers, hChoice⟩ := bind_eq_ok_iff.mp hChoice
      cases hChoice
      obtain ⟨values, hValues, rfl⟩ := ih hOthers
      exact ⟨value :: values, .cons hValue hValues, rfl⟩

/-- Guards that are evaluated without an error have been searched for the first that holds. -/
theorem found_of_evaluate (guards : List String) :
    ∀ {position : Nat} {c : GuardChoice},
      evaluate { scope with unresolved := .error } exhaustive position none guards = .ok c →
      Found scope exhaustive position guards c := by
  induction guards with
  | nil =>
      intro position c hChoice
      cases hChoice
      exact .absent .nil fun _ hMem => absurd hMem List.not_mem_nil
  | cons guard rest ih =>
      intro position c hChoice
      obtain ⟨value, hValue, hChoice⟩ := bind_eq_ok_iff.mp hChoice
      cases hHolds : holds value with
      | false =>
          simp only [hHolds] at hChoice
          obtain ⟨others, hOthers, hChoice⟩ := bind_eq_ok_iff.mp hChoice
          cases hChoice
          exact (ih hOthers).cons hValue hHolds
      | true =>
          have hFirst : ∀ behind, Valued scope (if exhaustive then rest else []) behind →
              Found scope exhaustive position ([] ++ guard :: rest)
                ⟨some (position + [].length), [] ++ value :: behind⟩ :=
            fun behind hBehind =>
              .present .nil (fun _ hMem => absurd hMem List.not_mem_nil) hValue hHolds hBehind
          cases exhaustive with
          | false =>
              simp only [hHolds] at hChoice
              cases hChoice
              exact hFirst [] .nil
          | true =>
              simp only [hHolds] at hChoice
              obtain ⟨others, hOthers, hChoice⟩ := bind_eq_ok_iff.mp hChoice
              cases hChoice
              obtain ⟨behind, hBehind, rfl⟩ := valued_of_evaluate rest hOthers
              exact hFirst behind hBehind

/-- Guards that do not hold are passed one after the other. -/
theorem evaluate_append {before values rest : List String} (hBefore : Valued scope before values)
    (hFail : ∀ value ∈ values, holds value = false) {c : GuardChoice} :
    ∀ {position : Nat}, evaluate { scope with unresolved := .error } exhaustive
        (position + before.length) none rest = .ok c →
      evaluate { scope with unresolved := .error } exhaustive position none (before ++ rest) =
        .ok ⟨c.index, values ++ c.values⟩ := by
  induction hBefore with
  | nil => exact fun hRest => hRest
  | @cons guard value before values hValue _ ih =>
      intro position hRest
      obtain ⟨hFirst, hOthers⟩ := List.forall_mem_cons.mp hFail
      have hPosition : position + (guard :: before).length = position + 1 + before.length := by
        rw [List.length_cons]
        omega
      rw [hPosition] at hRest
      refine bind_eq_ok_iff.mpr ⟨value, hValue, ?_⟩
      simp only [hFirst, Bool.and_false, Bool.false_and, Bool.false_eq_true, if_false]
      exact bind_eq_ok_iff.mpr ⟨_, ih hOthers hRest, rfl⟩

/-- Stopping at the first guard that holds finds the same one, and no values behind it. -/
theorem Found.evaluate_early {position : Nat} {guards : List String} {c : GuardChoice}
    (hFound : Found scope true position guards c) :
    ∃ early, evaluate { scope with unresolved := .error } false position none guards = .ok early ∧
      early.index = c.index ∧
      ∀ i, early.values[i]? = if c.index.any (· < position + i) then none else c.values[i]? := by
  cases hFound with
  | @absent _ values hValued hFail =>
      refine ⟨⟨none, values⟩, ?_, rfl, fun i => rfl⟩
      have hEnd : evaluate { scope with unresolved := .error } false (position + guards.length) none
          [] = .ok ⟨none, []⟩ := rfl
      have hAll := evaluate_append hValued hFail hEnd
      rwa [List.append_nil, List.append_nil] at hAll
  | @present before after values behind guard value hBefore hFail hValue hHolds hBehind =>
      refine ⟨⟨some (position + before.length), values ++ [value]⟩, ?_, rfl, ?_⟩
      · have hStop : evaluate { scope with unresolved := .error } false (position + before.length)
            none (guard :: after) = .ok ⟨some (position + before.length), [value]⟩ := by
          refine bind_eq_ok_iff.mpr ⟨value, hValue, ?_⟩
          simp only [hHolds]
          rfl
        exact evaluate_append hBefore hFail hStop
      · intro i
        have hLength : before.length = values.length := hBefore.length_eq
        simp only [Option.any_some, decide_eq_true_eq]
        split
        next hPast =>
          rw [List.getElem?_eq_none]
          simp only [List.length_append, List.length_singleton]
          omega
        next hUntil =>
          rcases Nat.lt_or_ge i values.length with hLess | hGe
          · rw [List.getElem?_append_left hLess, List.getElem?_append_left hLess]
          · obtain rfl : i = values.length := by omega
            simp

theorem Valued.exists_guard {guards values : List String} (hValued : Valued scope guards values) :
    ∀ {i : Nat} {value : String}, values[i]? = some value →
      ∃ guard, guards[i]? = some guard ∧ guardValue scope guard = .ok value := by
  induction hValued with
  | nil => exact fun hAt => by simp at hAt
  | @cons guard value _ _ hValue _ ih =>
      intro i value' hAt
      cases i with
      | zero =>
          obtain rfl : value = value' := by simpa using hAt
          exact ⟨guard, rfl, hValue⟩
      | succ i =>
          rw [List.getElem?_cons_succ] at hAt
          exact ih hAt

theorem Valued.not_guardHolds {guards values : List String} (hValued : Valued scope guards values)
    (hFail : ∀ value ∈ values, holds value = false) :
    ∀ guard ∈ guards, ¬GuardHolds scope guard := by
  induction hValued with
  | nil => exact fun _ hMem => absurd hMem List.not_mem_nil
  | @cons guard value _ _ hValue _ ih =>
      obtain ⟨hFirst, hOthers⟩ := List.forall_mem_cons.mp hFail
      refine List.forall_mem_cons.mpr ⟨?_, ih hOthers⟩
      rintro ⟨value', hValue', hHolds⟩
      obtain rfl : value = value' := Except.ok.inj (hValue.symm.trans hValue')
      rw [holds_iff.mpr hHolds] at hFirst
      cases hFirst

/-- The values found are those of the guards at their places. -/
theorem Found.exists_guard {position : Nat} {guards : List String} {c : GuardChoice}
    (hFound : Found scope exhaustive position guards c) {i : Nat} {value : String}
    (hAt : c.values[i]? = some value) :
    ∃ guard, guards[i]? = some guard ∧ guardValue scope guard = .ok value := by
  cases hFound with
  | absent hValued _ => exact hValued.exists_guard hAt
  | @present before after values behind guard held hBefore _ hHeld _ hBehind =>
      have hValued : Valued scope (before ++ guard :: if exhaustive then after else [])
          (values ++ held :: behind) := List.rel_append hBefore (.cons hHeld hBehind)
      obtain ⟨guard', hGuard, hValue⟩ := hValued.exists_guard hAt
      refine ⟨guard', ?_, hValue⟩
      have hEvaluated : before ++ (guard :: if exhaustive then after else []) <+:
          before ++ guard :: after := by
        cases exhaustive <;> simp
      obtain ⟨rest, hRest⟩ := hEvaluated
      rw [← hRest, List.getElem?_append_left (List.getElem?_eq_some_iff.mp hGuard).1, hGuard]

/-- All guards up to the first that holds have been evaluated. -/
theorem Found.isSome_value {guards : List String} {c : GuardChoice}
    (hFound : Found scope exhaustive 0 guards c) {i : Nat} (hLess : i < guards.length)
    (hUntil : ∀ index, c.index = some index → i ≤ index) : (c.values[i]?).isSome := by
  cases hFound with
  | absent hValued _ => simpa [← hValued.length_eq] using hLess
  | @present before after values behind guard held hBefore _ _ _ _ =>
      have hLength : before.length = values.length := hBefore.length_eq
      have hAtMost : i ≤ 0 + before.length := hUntil _ rfl
      have hWithin : i < (values ++ held :: behind).length := by
        rw [List.length_append, List.length_cons]
        omega
      rw [List.getElem?_eq_getElem hWithin]
      rfl

/-- If no guard is found, none holds. -/
theorem Found.not_guardHolds {position : Nat} {guards : List String} {c : GuardChoice}
    (hFound : Found scope exhaustive position guards c) (hIndex : c.index = none) :
    ∀ guard ∈ guards, ¬GuardHolds scope guard := by
  cases hFound with
  | absent hValued hFail => exact hValued.not_guardHolds hFail
  | present => cases hIndex

/-- The guard found is the first that holds. -/
theorem Found.isLeast {guards : List String} {c : GuardChoice}
    (hFound : Found scope exhaustive 0 guards c) {index : Nat} (hIndex : c.index = some index) :
    IsLeast {i | ∃ guard, guards[i]? = some guard ∧ GuardHolds scope guard} index := by
  cases hFound with
  | absent => cases hIndex
  | @present before after values behind guard held hBefore hFail hHeld hHolds _ =>
      obtain rfl : before.length = index := by simpa using hIndex
      refine ⟨⟨guard, by simp, held, hHeld, holds_iff.mp hHolds⟩, ?_⟩
      rintro i ⟨earlier, hEarlier, hEarlierHolds⟩
      by_contra hLess
      rw [List.getElem?_append_left (by omega)] at hEarlier
      exact hBefore.not_guardHolds hFail earlier (List.mem_of_getElem? hEarlier) hEarlierHolds

end

end GuardChoice

namespace Walk

variable {scope : Scope} {exhaustive : Bool} {d : Decision} {c : GuardChoice}

theorem getElem?_recordOf (d : Decision) (c : GuardChoice) (i : Nat) :
    (recordOf d c).cases[i]? =
      d.cases[i]?.map fun guarded => ⟨guarded.guard, guarded.target, c.values[i]?⟩ :=
  List.getElem?_mapIdx

theorem takenCase_recordOf (hFound : c.Found scope exhaustive 0 (d.cases.map GuardedCase.guard)) :
    (recordOf d c).takenCase = c.index := by
  cases hIndex : c.index with
  | none => simp [recordOf, hIndex]
  | some index =>
      obtain ⟨guard, hGuard, -⟩ := (hFound.isLeast hIndex).1
      rw [List.getElem?_map, Option.map_eq_some_iff] at hGuard
      obtain ⟨guarded, hGuarded, -⟩ := hGuard
      simp [recordOf, hIndex, hGuarded]

theorem cases_recordOf (d : Decision) (c : GuardChoice) :
    (recordOf d c).cases.map (fun r => GuardedCase.mk r.guard r.target) = d.cases := by
  refine List.ext_getElem? fun i => ?_
  rw [List.getElem?_map, getElem?_recordOf, Option.map_map]
  exact Option.map_id_apply

/-- What has been found for the guards of a decision is what its record says. -/
theorem selects_recordOf (hFound : c.Found scope exhaustive 0 (d.cases.map GuardedCase.guard)) :
    (recordOf d c).Selects scope d := by
  have hTaken := takenCase_recordOf hFound
  have hLeast : ∀ {index}, c.index = some index →
      IsLeast {i | ∃ guarded, d.cases[i]? = some guarded ∧ GuardHolds scope guarded.guard}
        index := by
    intro index hIndex
    simpa using hFound.isLeast hIndex
  have hNone : c.index = none → ∀ guarded ∈ d.cases, ¬GuardHolds scope guarded.guard :=
    fun hIndex guarded hMem =>
      hFound.not_guardHolds hIndex guarded.guard (List.mem_map_of_mem hMem)
  refine
    { cases := cases_recordOf d c
      fallback := rfl
      values := ?_
      evaluated := ?_
      taken := ?_
      untaken := ?_
      selected := ?_ }
  · intro r hMem value hValue
    obtain ⟨i, hAt⟩ := List.mem_iff_getElem?.mp hMem
    rw [getElem?_recordOf, Option.map_eq_some_iff] at hAt
    obtain ⟨guarded, hGuarded, rfl⟩ := hAt
    obtain ⟨guard, hGuard, hEvaluated⟩ := hFound.exists_guard hValue
    rw [List.getElem?_map, hGuarded] at hGuard
    cases hGuard
    exact hEvaluated
  · intro i r hAt hUntil
    rw [getElem?_recordOf, Option.map_eq_some_iff] at hAt
    obtain ⟨guarded, hGuarded, rfl⟩ := hAt
    rw [hTaken] at hUntil
    have hLess : i < d.cases.length := (List.getElem?_eq_some_iff.mp hGuarded).1
    exact hFound.isSome_value (by rwa [List.length_map]) hUntil
  · intro index
    rw [hTaken]
    refine ⟨hLeast, fun hFirst => ?_⟩
    cases hIndex : c.index with
    | none =>
        obtain ⟨guarded, hGuarded, hHolds⟩ := hFirst.1
        exact absurd hHolds (hNone hIndex guarded (List.mem_of_getElem? hGuarded))
    | some found => rw [(hLeast hIndex).unique hFirst]
  · rw [hTaken]
    refine ⟨hNone, fun hFails => ?_⟩
    cases hIndex : c.index with
    | none => rfl
    | some found =>
        obtain ⟨guarded, hGuarded, hHolds⟩ := (hLeast hIndex).1
        exact absurd hHolds (hFails guarded (List.mem_of_getElem? hGuarded))
  · rw [hTaken]
    rfl

/-- Evaluating fewer guards leaves values out of the record. -/
theorem recordOf_early {early : GuardChoice}
    (hFound : c.Found scope exhaustive 0 (d.cases.map GuardedCase.guard))
    (hIndex : early.index = c.index)
    (hValues : ∀ i, early.values[i]? = if c.index.any (· < 0 + i) then none else c.values[i]?) :
    recordOf d early = (recordOf d c).untilSelected := by
  have hCases : (recordOf d early).cases = (recordOf d c).untilSelected.cases := by
    refine List.ext_getElem? fun i => ?_
    rw [ResolvedDecision.untilSelected, List.getElem?_mapIdx, getElem?_recordOf, getElem?_recordOf,
      takenCase_recordOf hFound, hValues, Option.map_map, Nat.zero_add]
    congr 1
    funext guarded
    simp only [Function.comp_apply]
    split <;> rfl
  rw [ResolvedDecision.mk.injEq]
  refine ⟨rfl, hCases, rfl, ?_, ?_⟩
  · simp [recordOf, ResolvedDecision.untilSelected, hIndex]
  · simp [recordOf, ResolvedDecision.untilSelected, hIndex]

theorem found_of_resolveDecision {options : TaskOptions} {record : ResolvedDecision}
    (hRecord : resolveDecision options scope d = .ok record) :
    ∃ c, GuardChoice.Found scope options.strictDecisions 0 (d.cases.map GuardedCase.guard) c ∧
      record = recordOf d c := by
  unfold resolveDecision at hRecord
  split at hRecord
  · cases hRecord
  next c hChoice =>
    dsimp only at hRecord
    split at hRecord
    · cases hRecord
    · cases hRecord
      exact ⟨c, GuardChoice.found_of_evaluate _ hChoice, rfl⟩

/-- A decision that is resolved strictly is resolved in the same way otherwise. -/
theorem resolveDecision_alike (options : TaskOptions) (scope : Scope) (d : Decision) :
    Alike (fun _ => True) (fun record record' => record.untilSelected = record')
      (resolveDecision (options.withStrict true) scope d)
      (resolveDecision (options.withStrict false) scope d) := by
  cases hStrict : resolveDecision (options.withStrict true) scope d with
  | error e => exact .broken _ trivial
  | ok record =>
      obtain ⟨c, hFound, rfl⟩ := found_of_resolveDecision hStrict
      obtain ⟨early, hChoice, hIndex, hValues⟩ := hFound.evaluate_early
      have hEarly : chooseGuard scope false (d.cases.map GuardedCase.guard) = .ok early := hChoice
      have hLax : resolveDecision (options.withStrict false) scope d = .ok (recordOf d early) := by
        simp [resolveDecision, TaskOptions.withStrict, hEarly]
      rw [hLax]
      exact .returned (recordOf_early hFound hIndex hValues).symm

/-- The walks with strict decisions and without go in parallel until the strict one fails. -/
theorem ofWorkflow_alike_strict (w : Workflow) (options : TaskOptions) :
    Alike (fun _ => True)
      (fun g g' => g' = { g with decisions := g.decisions.map ResolvedDecision.untilSelected })
      (TaskGraph.ofWorkflow w (options.withStrict true)).result
      (TaskGraph.ofWorkflow w (options.withStrict false)).result := by
  have hParallel : Parallel w w (options.withStrict true) (options.withStrict false)
      (scopeOf w options) (scopeOf w options) (fun _ => True) (fun _ => True)
      (fun record record' => record.untilSelected = record') :=
    { find? := fun _ => rfl
      closing? := fun _ _ => rfl
      target := fun _ _ => trivial
      join := fun _ _ _ => trivial
      body := fun _ _ _ => .of_eq rfl
      decision := fun _ _ => resolveDecision_alike options _ _
      named := fun hSame => by rw [← hSame, ResolvedDecision.untilSelected] }
  refine (ofWorkflow_alike hParallel trivial rfl).mono (fun _ hBreaks => hBreaks) ?_
  rintro g g' ⟨hGraph, hGraph', hDecisions⟩
  have hMap : g.decisions.map ResolvedDecision.untilSelected = g'.decisions := by
    rw [← List.forall₂_map_left_iff, List.forall₂_eq_eq_eq] at hDecisions
    exact hDecisions
  rw [hGraph', ← hMap]
  conv_rhs => rw [hGraph]
  rfl

end Walk

/-- Where the transformation of a workflow succeeds with strict decisions, it gives the same without
them: the same tasks, configuration and decisions, up to the values of guards behind a selected
case.  Either way a decision selects the first case whose guard holds, or its default if there is
none. -/
theorem strict_decisions_conservative {source : String} {w : Workflow}
    (hRead : (Workflow.read source).result = .ok w) (options : TaskOptions) :
    (∀ g, (TaskGraph.ofWorkflow w (options.withStrict true)).result = .ok g →
      (TaskGraph.ofWorkflow w (options.withStrict false)).result =
        .ok { g with decisions := g.decisions.map ResolvedDecision.untilSelected }) ∧
    ∀ strict g, (TaskGraph.ofWorkflow w (options.withStrict strict)).result = .ok g →
      ∀ record ∈ g.decisions, ∃ d, Workflow.find? w.nodes record.decision = some (.decision d) ∧
        record.Selects (Walk.scopeOf w options) d := by
  refine ⟨fun g hGraph => ?_, fun strict g hGraph record hRecord => ?_⟩
  · have hAlike := Walk.ofWorkflow_alike_strict w options
    rw [hGraph] at hAlike
    generalize (TaskGraph.ofWorkflow w (options.withStrict false)).result = second at hAlike ⊢
    cases hAlike with
    | returned hSame => rw [hSame]
  · have hTransformed := Transformed.of_ofWorkflow (Workflow.checked_of_read hRead) hGraph
    obtain ⟨d, hFind, hResolved⟩ := hTransformed.resolved record hRecord
    obtain ⟨c, hFound, rfl⟩ := Walk.found_of_resolveDecision hResolved
    exact ⟨d, hFind, Walk.selects_recordOf hFound⟩

namespace PassedOver

/-- The units of a document with a decision that has a case on either side of the one selected. -/
def units : List Char :=
  ["<w name='w'>",
    "<start to='d'/>",
    "<decision name='d'><switch><case to='e'>$\x7bfirst\x7d</case>",
    "<case to='k'>$\x7bsecond\x7d</case><case to='e'>false</case>",
    "<default to='e'/></switch></decision>",
    "<kill name='k'><message>stopped</message></kill>",
    "<end name='e'/>",
    "</w>"].flatMap String.toList

/-- The document with these units. -/
def source : String :=
  String.ofList units

/-- The cases of the decision. -/
def guardedCases : List GuardedCase :=
  [⟨"$\x7bfirst\x7d", "e"⟩, ⟨"$\x7bsecond\x7d", "k"⟩, ⟨"false", "e"⟩]

/-- The workflow of the document. -/
def workflow : Workflow where
  name := "w"
  nodes := [.start "d", .decision ⟨"d", guardedCases, "e"⟩, .kill "k" "stopped", .finish "e"]
  closingJoins := []
  defaults := .empty

theorem read_source : (Workflow.read source).result = .ok workflow :=
  Workflow.read_ofList (by decide +kernel)

/-- Options under which the second guard is the first that holds. -/
def options : TaskOptions where
  configuration := ⟨[("first", ""), ("second", "yes")]⟩

/-- What strict evaluation records of the decision. -/
def record : ResolvedDecision where
  decision := "d"
  cases := [⟨"$\x7bfirst\x7d", "e", some ""⟩, ⟨"$\x7bsecond\x7d", "k", some "yes"⟩,
    ⟨"false", "e", some "false"⟩]
  fallback := "e"
  selected := "k"
  takenCase := some 1

/-- The tasks of the document, with the decision resolved strictly. -/
def graph : TaskGraph where
  workflow := "w"
  tasks :=
    [{ id := "k"
       source := "k"
       body := .kill "stopped"
       dependencies := [⟨none, .success, [⟨"d", some 1, some "$\x7bsecond\x7d", none⟩], none⟩] }]
  decisions := [record]
  configuration := options.configuration

theorem ofWorkflow_workflow :
    (TaskGraph.ofWorkflow workflow (options.withStrict true)).result = .ok graph := by
  decide +kernel

end PassedOver

theorem strict_decisions_conservative_passedOver :
    (Workflow.read PassedOver.source).result = .ok PassedOver.workflow ∧
      (TaskGraph.ofWorkflow PassedOver.workflow (PassedOver.options.withStrict false)).result =
        .ok { PassedOver.graph with decisions := [PassedOver.record.untilSelected] } ∧
      PassedOver.record.untilSelected.cases.map CaseRecord.value = [some "", some "yes", none] ∧
      ∃ d, Workflow.find? PassedOver.workflow.nodes "d" = some (.decision d) ∧
        PassedOver.record.Selects (Walk.scopeOf PassedOver.workflow PassedOver.options) d := by
  obtain ⟨hConservative, hSelects⟩ :=
    strict_decisions_conservative PassedOver.read_source PassedOver.options
  exact ⟨PassedOver.read_source, hConservative _ PassedOver.ofWorkflow_workflow, by decide,
    hSelects true _ PassedOver.ofWorkflow_workflow _ (List.mem_singleton.mpr rfl)⟩

end WorkflowDag
