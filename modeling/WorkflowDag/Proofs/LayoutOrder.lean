import Mathlib.Data.List.Basic
import Mathlib.Data.List.Nodup
import Mathlib.Logic.Relation
import WorkflowDag.Dag.Layout
import WorkflowDag.Proofs.Success

/-!
# The order of a layout

A layout holds the operators it was given (`place_perm`), and each of them stands behind all that it
waits on (`place_inOrder`).  Operators have a layout when no chain of ids that wait on each other
goes on forever (`exists_order`): then some operator is always ready.
-/

namespace WorkflowDag

theorem pairwise_idxOf {α : Type} [DecidableEq α] {xs : List α} (hDistinct : xs.Nodup) :
    xs.Pairwise fun a b => xs.idxOf a < xs.idxOf b := by
  rw [List.pairwise_iff_getElem]
  intro i j hi hj hLess
  rwa [hDistinct.idxOf_getElem, hDistinct.idxOf_getElem]

namespace Layout

/-- An operator with the second id waits on the first id. -/
def Precedes (operators : List Operator) (before id : String) : Prop :=
  ∃ o ∈ operators, o.id = id ∧ before ∈ o.predecessors

/-- Behind the ids placed, each operator stands behind all that it waits on. -/
def InOrder : List String → List Operator → Prop
  | _, [] => True
  | placed, o :: rest => (∀ id ∈ o.predecessors, id ∈ placed) ∧ InOrder (o.id :: placed) rest

section First

variable {operators : List Operator} {o : Operator}

theorem mem_of_first? (hFirst : first? operators = some o) : o ∈ operators := by
  cases operators with
  | nil => cases hFirst
  | cons head rest =>
      have hFold : ∀ (others : List Operator) (best : Operator),
          others.foldl (fun best other => if goesBefore other best then other else best) best ∈
            best :: others := by
        intro others
        induction others with
        | nil => exact fun best => List.mem_singleton.mpr rfl
        | cons other others ih =>
            intro best
            rw [List.foldl_cons]
            split
            · exact List.mem_cons_of_mem _ (ih other)
            · rcases List.mem_cons.mp (ih best) with hBest | hOther
              · rw [hBest]
                exact List.mem_cons_self
              · exact List.mem_cons_of_mem _ (List.mem_cons_of_mem _ hOther)
      cases hFirst
      exact hFold rest head

theorem exists_first? (hMem : o ∈ operators) : ∃ next, first? operators = some next := by
  cases operators with
  | nil => exact absurd hMem List.not_mem_nil
  | cons head rest => exact ⟨_, rfl⟩

theorem isReady_iff {placed : List String} :
    isReady placed o = true ↔ ∀ id ∈ o.predecessors, id ∈ placed := by
  simp [isReady]

end First

/-- The operators that are left once the next one has been placed. -/
def without (next : Operator) (operators : List Operator) : List Operator :=
  operators.filter fun other => other.id != next.id

section Place

variable {next : Operator} {operators ordered : List Operator}

theorem mem_without {o : Operator} :
    o ∈ without next operators ↔ o ∈ operators ∧ o.id ≠ next.id := by
  simp [without]

/-- With distinct ids, only the operator placed is gone. -/
theorem perm_cons_without (hIds : (operators.map Operator.id).Nodup) (hMem : next ∈ operators) :
    operators.Perm (next :: without next operators) := by
  induction operators with
  | nil => exact absurd hMem List.not_mem_nil
  | cons head rest ih =>
      rw [List.map_cons, List.nodup_cons] at hIds
      rcases List.mem_cons.mp hMem with rfl | hRest
      · have hOthers : without next (next :: rest) = rest := by
          unfold without
          rw [List.filter_cons_of_neg (by simp), List.filter_eq_self]
          intro other hOther
          have hId : other.id ≠ next.id := by
            intro hSame
            exact hIds.1 (hSame ▸ List.mem_map_of_mem hOther)
          simpa using hId
        rw [hOthers]
      · have hHead : head.id ≠ next.id := by
          intro hSame
          exact hIds.1 (hSame ▸ List.mem_map_of_mem hRest)
        have hKept : without next (head :: rest) = head :: without next rest := by
          unfold without
          rw [List.filter_cons_of_pos (by simpa using hHead)]
        rw [hKept]
        exact ((ih hIds.2 hRest).cons head).trans (List.Perm.swap next head _)

/-- What a step of placing does: of the operators that are ready, it puts the first in front. -/
theorem place_first {steps : Nat} {placed : List String} {o : Operator} {rest : List Operator}
    (hPlace : place steps placed (o :: rest) = .ok ordered) :
    ∃ fewer next others, steps = fewer + 1 ∧
      first? ((o :: rest).filter (isReady placed)) = some next ∧
      place fewer (next.id :: placed) (without next (o :: rest)) = .ok others ∧
      ordered = next :: others := by
  cases steps with
  | zero => cases hPlace
  | succ fewer =>
      rw [place] at hPlace
      split at hPlace
      · cases hPlace
      next next hNext =>
        obtain ⟨others, hOthers, hPlace⟩ := bind_eq_ok_iff.mp hPlace
        cases hPlace
        exact ⟨fewer, next, others, rfl, hNext, hOthers, rfl⟩

/-- The operator that a step of placing puts in front is ready. -/
theorem place_step {steps : Nat} {placed : List String} {o : Operator} {rest : List Operator}
    (hPlace : place steps placed (o :: rest) = .ok ordered) :
    ∃ fewer next others, steps = fewer + 1 ∧ next ∈ o :: rest ∧
      (∀ id ∈ next.predecessors, id ∈ placed) ∧
      place fewer (next.id :: placed) (without next (o :: rest)) = .ok others ∧
      ordered = next :: others := by
  obtain ⟨fewer, next, others, hSteps, hNext, hOthers, hSame⟩ := place_first hPlace
  obtain ⟨hMem, hReady⟩ := List.mem_filter.mp (mem_of_first? hNext)
  exact ⟨fewer, next, others, hSteps, hMem, isReady_iff.mp hReady, hOthers, hSame⟩

/-- Each operator of a layout stands behind all that it waits on. -/
theorem place_inOrder (ordered : List Operator) :
    ∀ {steps : Nat} {placed : List String} {operators : List Operator},
      place steps placed operators = .ok ordered → InOrder placed ordered := by
  induction ordered with
  | nil => exact fun _ => trivial
  | cons first rest ih =>
      intro steps placed operators hPlace
      cases operators with
      | nil => cases steps <;> cases hPlace
      | cons o others =>
          obtain ⟨fewer, next, laid, -, -, hReady, hLaid, hSame⟩ := place_step hPlace
          cases hSame
          exact ⟨hReady, ih hLaid⟩

/-- What an operator waits on has been placed, or stands in front of it. -/
theorem InOrder.exists_before {order : List Operator} :
    ∀ {placed : List String}, InOrder placed order → order.Nodup →
      ∀ v ∈ order, ∀ id ∈ v.predecessors,
        id ∈ placed ∨ ∃ u ∈ order, u.id = id ∧ order.idxOf u < order.idxOf v := by
  induction order with
  | nil => exact fun _ _ _ hMem => absurd hMem List.not_mem_nil
  | cons o rest ih =>
      intro placed hOrder hDistinct
      obtain ⟨hReady, hRest⟩ := hOrder
      obtain ⟨hNew, hDistinct⟩ := List.nodup_cons.mp hDistinct
      have hLater : ∀ v ∈ rest, (o :: rest).idxOf v = rest.idxOf v + 1 := fun v hMem =>
        List.idxOf_cons_ne rest fun hSame => hNew (hSame ▸ hMem)
      refine List.forall_mem_cons.mpr ⟨fun id hId => Or.inl (hReady id hId), ?_⟩
      intro v hMem id hId
      rcases ih hRest hDistinct v hMem id hId with hPlaced | ⟨u, hu, hSame, hLess⟩
      · rcases List.mem_cons.mp hPlaced with rfl | hPlaced
        · refine Or.inr ⟨o, List.mem_cons_self, rfl, ?_⟩
          rw [hLater v hMem, List.idxOf_cons_self]
          exact Nat.succ_pos _
        · exact Or.inl hPlaced
      · refine Or.inr ⟨u, List.mem_cons_of_mem o hu, hSame, ?_⟩
        rw [hLater v hMem, hLater u hu]
        exact Nat.succ_lt_succ hLess

/-- A layout holds the operators it was given. -/
theorem place_perm (ordered : List Operator) :
    ∀ {steps : Nat} {placed : List String} {operators : List Operator},
      (operators.map Operator.id).Nodup → place steps placed operators = .ok ordered →
      ordered.Perm operators := by
  induction ordered with
  | nil =>
      intro steps placed operators hIds hPlace
      cases operators with
      | nil => exact List.Perm.nil
      | cons o others =>
          obtain ⟨_, _, _, -, -, -, -, hSame⟩ := place_step hPlace
          cases hSame
  | cons first rest ih =>
      intro steps placed operators hIds hPlace
      cases operators with
      | nil => cases steps <;> cases hPlace
      | cons o others =>
          obtain ⟨fewer, next, laid, -, hMem, -, hLaid, hSame⟩ := place_step hPlace
          cases hSame
          have hSplit := perm_cons_without hIds hMem
          have hLeft : ((without first (o :: others)).map Operator.id).Nodup :=
            hIds.sublist (List.filter_sublist.map Operator.id)
          exact ((ih hLeft hLaid).cons first).trans hSplit.symm

/-- Where no chain of ids goes on forever, some operator that is left is ready. -/
theorem exists_ready {remaining : List Operator} {placed : List String} {o : Operator}
    (hAll : ∀ o ∈ remaining, ∀ id ∈ o.predecessors,
      id ∈ placed ∨ ∃ other ∈ remaining, other.id = id)
    (hRemaining : remaining ⊆ operators) (hAcc : Acc (Precedes operators) o.id)
    (hMem : o ∈ remaining) : ∃ next ∈ remaining, ∀ id ∈ next.predecessors, id ∈ placed := by
  generalize hId : o.id = name at hAcc
  induction hAcc generalizing o with
  | intro name _ ih =>
      cases hReady : isReady placed o with
      | true => exact ⟨o, hMem, isReady_iff.mp hReady⟩
      | false =>
          obtain ⟨id, hBefore, hMissing⟩ := List.all_eq_false.mp hReady
          rcases hAll o hMem id hBefore with hPlaced | ⟨other, hOther, hSame⟩
          · exact absurd (List.contains_iff_mem.mpr hPlaced) hMissing
          · exact ih id ⟨o, hRemaining hMem, hId, hBefore⟩ hOther hSame

/-- Placing succeeds where all that is waited on is there and no chain of ids goes on forever. -/
theorem place_total (steps : Nat) :
    ∀ {placed : List String} {remaining : List Operator}, remaining.length ≤ steps →
      remaining ⊆ operators → (∀ o ∈ remaining, Acc (Precedes operators) o.id) →
      (∀ o ∈ remaining, ∀ id ∈ o.predecessors,
        id ∈ placed ∨ ∃ other ∈ remaining, other.id = id) →
      ∃ ordered, place steps placed remaining = .ok ordered := by
  induction steps with
  | zero =>
      intro placed remaining hLength _ _ _
      rw [List.length_eq_zero_iff.mp (Nat.le_zero.mp hLength)]
      exact ⟨[], rfl⟩
  | succ steps ih =>
      intro placed remaining hLength hRemaining hAcc hAll
      cases remaining with
      | nil => exact ⟨[], rfl⟩
      | cons o rest =>
          obtain ⟨ready, hReadyMem, hReady⟩ :=
            exists_ready hAll hRemaining (hAcc o List.mem_cons_self) List.mem_cons_self
          have hCandidate : ready ∈ (o :: rest).filter (isReady placed) :=
            List.mem_filter.mpr ⟨hReadyMem, isReady_iff.mpr hReady⟩
          obtain ⟨next, hNext⟩ := exists_first? hCandidate
          have hNextMem := (List.mem_filter.mp (mem_of_first? hNext)).1
          -- Placing an operator takes it out of what remains, which pays for the step.
          have hShorter : (without next (o :: rest)).length < (o :: rest).length := by
            apply List.length_filter_lt_length_iff_exists.mpr
            exact ⟨next, hNextMem, by simp⟩
          have hLeft : without next (o :: rest) ⊆ o :: rest :=
            fun _ hOther => (mem_without.mp hOther).1
          obtain ⟨others, hOthers⟩ : ∃ others,
              place steps (next.id :: placed) (without next (o :: rest)) = .ok others := by
            apply ih (by omega) (List.Subset.trans hLeft hRemaining)
            · exact fun other hOther => hAcc other (hLeft hOther)
            · intro other hOther id hBefore
              rcases hAll other (hLeft hOther) id hBefore with hPlaced | ⟨found, hFound, rfl⟩
              · exact Or.inl (List.mem_cons_of_mem _ hPlaced)
              · by_cases hSame : found.id = next.id
                · exact Or.inl (hSame ▸ List.mem_cons_self)
                · exact Or.inr ⟨found, mem_without.mpr ⟨hFound, hSame⟩, rfl⟩
          refine ⟨next :: others, ?_⟩
          rw [place, hNext]
          exact bind_eq_ok_iff.mpr ⟨others, hOthers, rfl⟩

end Place

/-- Operators with distinct ids have a layout where all that is waited on is there and no chain of
ids goes on forever. -/
theorem exists_order {operators : List Operator} (hIds : (operators.map Operator.id).Nodup)
    (hNamed : ∀ o ∈ operators, ∀ id ∈ o.predecessors, ∃ other ∈ operators, other.id = id)
    (hAcc : ∀ o ∈ operators, Acc (Precedes operators) o.id) :
    ∃ ordered, order operators = .ok ordered ∧ ordered.Perm operators ∧ InOrder [] ordered := by
  obtain ⟨ordered, hOrdered⟩ : ∃ ordered, place operators.length [] operators = .ok ordered :=
    place_total operators.length (Nat.le_refl _) (List.Subset.refl operators) hAcc
      fun o hMem id hBefore => Or.inr (hNamed o hMem id hBefore)
  exact ⟨ordered, hOrdered, place_perm ordered hIds hOrdered, place_inOrder ordered hOrdered⟩

/-- An id from which every chain ends waits on itself in no way. -/
theorem not_transGen_self {operators : List Operator} {id : String}
    (hAcc : Acc (Precedes operators) id) :
    ¬Relation.TransGen (Precedes operators) id id := by
  have hChain := hAcc.transGen
  induction hChain with
  | intro id hBefore ih => exact fun hSelf => ih id hSelf (hAcc.inv_of_transGen hSelf) hSelf

end Layout
end WorkflowDag
