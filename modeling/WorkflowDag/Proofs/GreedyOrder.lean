import Mathlib.Data.Fintype.Card
import Mathlib.Data.Fintype.EquivFin
import Mathlib.Data.Fintype.Sets
import Mathlib.Data.Prod.Lex
import WorkflowDag.Proofs.LayoutTotal
import WorkflowDag.Proofs.Records

/-!
# Greedy orders

Placing is greedy: of the operators that are left and ready, each step places the one of the lowest
rank (`greedy_of_order`).  Greed costs nothing, since an operator that is ready stays ready.  So
placing fails only where the operators have no order at all (`exists_order_iff`), which means that
an id waited on is that of no operator, or that some id waits on itself (`orderable_iff`).
-/

namespace WorkflowDag
namespace Layout

/-- What decides between operators that are ready: how many ids they wait on, then their sort keys
unit by unit, then which of them was made first. -/
def rank (operators : List Operator) (o : Operator) : Nat ×ₗ List Nat ×ₗ Nat :=
  toLex (o.predecessors.length, toLex (Text.units o.sortKey, operators.idxOf o))

/-- Each operator stands behind all that it waits on and has the lowest rank of those that could
have stood in its place. -/
structure Greedy (operators ordered : List Operator) : Prop where
  all : ordered.Perm operators
  ready : ∀ front o rest, ordered = front ++ o :: rest →
    ∀ id ∈ o.predecessors, id ∈ front.map Operator.id
  first : ∀ front o rest, ordered = front ++ o :: rest → ∀ other ∈ rest,
    (∀ id ∈ other.predecessors, id ∈ front.map Operator.id) →
      rank operators o < rank operators other

section Ranks

variable {operators : List Operator} {a b : Operator}

theorem goesBefore_iff : goesBefore a b = true ↔
    a.predecessors.length < b.predecessors.length ∨
      a.predecessors.length = b.predecessors.length ∧
        Text.units a.sortKey < Text.units b.sortKey := by
  simp [goesBefore, Text.before_iff]

theorem rank_lt_iff : rank operators a < rank operators b ↔
    a.predecessors.length < b.predecessors.length ∨
      a.predecessors.length = b.predecessors.length ∧
        (Text.units a.sortKey < Text.units b.sortKey ∨
          Text.units a.sortKey = Text.units b.sortKey ∧
            operators.idxOf a < operators.idxOf b) := by
  simp [rank, Prod.Lex.toLex_lt_toLex]

theorem rank_lt_of_goesBefore (hBefore : goesBefore a b = true) :
    rank operators a < rank operators b := by
  rcases goesBefore_iff.mp hBefore with hFewer | ⟨hSame, hLess⟩
  · exact rank_lt_iff.mpr (Or.inl hFewer)
  · exact rank_lt_iff.mpr (Or.inr ⟨hSame, Or.inl hLess⟩)

/-- Of two operators, the later one has the higher rank unless it goes before the other. -/
theorem rank_lt_of_idxOf_lt (hMade : operators.idxOf a < operators.idxOf b)
    (hNot : ¬goesBefore b a = true) : rank operators a < rank operators b := by
  rw [goesBefore_iff] at hNot
  rw [rank_lt_iff]
  rcases Nat.lt_trichotomy a.predecessors.length b.predecessors.length with hFewer | hSame | hMore
  · exact Or.inl hFewer
  · refine Or.inr ⟨hSame, ?_⟩
    rcases lt_trichotomy (Text.units a.sortKey) (Text.units b.sortKey) with hLess | hEq | hGreater
    · exact Or.inl hLess
    · exact Or.inr ⟨hEq, hMade⟩
    · exact absurd (Or.inr ⟨hSame.symm, hGreater⟩) hNot
  · exact absurd (Or.inl hMore) hNot

/-- Among operators in the order in which they were made, the first has the lowest rank. -/
theorem rank_le_of_first? {candidates : List Operator} {o : Operator}
    (hMade : candidates.Pairwise fun a b => operators.idxOf a < operators.idxOf b)
    (hFirst : first? candidates = some o) :
    ∀ other ∈ candidates, rank operators o ≤ rank operators other := by
  -- The best one so far was made before those still to be compared, so it wins every tie.
  have hFold : ∀ (others : List Operator) (best : Operator),
      (best :: others).Pairwise (fun a b => operators.idxOf a < operators.idxOf b) →
      ∀ other ∈ best :: others, rank operators (others.foldl
        (fun best other => if goesBefore other best then other else best) best) ≤
          rank operators other := by
    intro others
    induction others with
    | nil =>
        intro best _ other hOther
        rw [List.mem_singleton.mp hOther]
        exact le_refl _
    | cons next others ih =>
        intro best hOrder
        obtain ⟨hBest, hOthers⟩ := List.pairwise_cons.mp hOrder
        rw [List.foldl_cons]
        by_cases hNext : goesBefore next best = true
        · rw [if_pos hNext]
          have hLeast := ih next hOthers
          refine List.forall_mem_cons.mpr ⟨?_, hLeast⟩
          exact (hLeast next List.mem_cons_self).trans (rank_lt_of_goesBefore hNext).le
        · rw [if_neg hNext]
          have hLeast := ih best (hOrder.sublist (List.sublist_cons_self _ _ |>.cons_cons _))
          obtain ⟨hOwn, hRest⟩ := List.forall_mem_cons.mp hLeast
          refine List.forall_mem_cons.mpr ⟨hOwn, List.forall_mem_cons.mpr ⟨?_, hRest⟩⟩
          exact hOwn.trans (rank_lt_of_idxOf_lt (hBest next List.mem_cons_self) hNext).le
  cases candidates with
  | nil => cases hFirst
  | cons head rest =>
      cases hFirst
      exact hFold rest head hMade

end Ranks

section Steps

variable {operators : List Operator}

/-- Each step of placing takes the lowest rank of what is ready. -/
theorem place_greedy (hIds : (operators.map Operator.id).Nodup) (ordered : List Operator) :
    ∀ {steps : Nat} {placed : List String} {remaining : List Operator},
      remaining.Sublist operators → place steps placed remaining = .ok ordered →
      ∀ front o rest, ordered = front ++ o :: rest → ∀ other ∈ rest,
        (∀ id ∈ other.predecessors, id ∈ front.map Operator.id ∨ id ∈ placed) →
          rank operators o < rank operators other := by
  induction ordered with
  | nil => exact fun _ _ front o rest hSplit => absurd hSplit.symm (by simp)
  | cons head others ih =>
      intro steps placed remaining hRemaining hPlace front o rest hSplit other hOther hReady
      cases remaining with
      | nil => cases steps <;> cases hPlace
      | cons first left =>
          obtain ⟨fewer, next, laid, -, hNext, hLaid, hSame⟩ := place_first hPlace
          cases hSame
          have hLeft : (without head (first :: left)).Sublist (first :: left) :=
            List.filter_sublist
          have hLeftIds := hIds.sublist ((hLeft.trans hRemaining).map Operator.id)
          cases front with
          | nil =>
              -- Here `o` is what this step placed, so the other one was a candidate and lost.
              cases hSplit
              obtain ⟨hMem, hOtherId⟩ :=
                mem_without.mp ((place_perm others hLeftIds hLaid).mem_iff.mp hOther)
              have hCandidate : other ∈ (first :: left).filter (isReady placed) := by
                refine List.mem_filter.mpr ⟨hMem, isReady_iff.mpr fun id hId => ?_⟩
                exact (hReady id hId).resolve_left List.not_mem_nil
              have hMade : ((first :: left).filter (isReady placed)).Pairwise
                  fun a b => operators.idxOf a < operators.idxOf b :=
                (pairwise_idxOf hIds.of_map).sublist (List.filter_sublist.trans hRemaining)
              refine lt_of_le_of_ne (rank_le_of_first? hMade hNext other hCandidate) ?_
              intro hRank
              have hPlace : operators.idxOf head = operators.idxOf other := by
                simpa [rank] using congrArg (fun r => (ofLex (ofLex r).2).2) hRank
              have hHead : head ∈ operators :=
                hRemaining.subset (List.mem_filter.mp (mem_of_first? hNext)).1
              exact hOtherId (congrArg Operator.id ((List.idxOf_inj hHead).mp hPlace).symm)
          | cons head' front =>
              cases hSplit
              refine ih (hLeft.trans hRemaining) hLaid front o rest rfl other hOther ?_
              intro id hId
              rcases hReady id hId with hFront | hPlaced
              · rcases List.mem_cons.mp hFront with rfl | hFront
                · exact Or.inr List.mem_cons_self
                · exact Or.inl hFront
              · exact Or.inr (List.mem_cons_of_mem _ hPlaced)

/-- In an order, all that an operator waits on has been placed or stands in front of it. -/
theorem InOrder.ready (ordered : List Operator) :
    ∀ {placed : List String}, InOrder placed ordered →
      ∀ front o rest, ordered = front ++ o :: rest →
        ∀ id ∈ o.predecessors, id ∈ front.map Operator.id ∨ id ∈ placed := by
  induction ordered with
  | nil => exact fun _ front o rest hSplit => absurd hSplit.symm (by simp)
  | cons head others ih =>
      intro placed hOrder front o rest hSplit id hId
      cases front with
      | nil =>
          cases hSplit
          exact Or.inr (hOrder.1 id hId)
      | cons head' front =>
          cases hSplit
          rcases ih hOrder.2 front o rest rfl id hId with hFront | hPlaced
          · exact Or.inl (List.mem_cons_of_mem _ hFront)
          · rcases List.mem_cons.mp hPlaced with rfl | hPlaced
            · exact Or.inl List.mem_cons_self
            · exact Or.inr hPlaced

/-- Ordering operators with distinct ids is greedy. -/
theorem greedy_of_order {ordered : List Operator} (hIds : (operators.map Operator.id).Nodup)
    (hOrder : order operators = .ok ordered) : Greedy operators ordered := by
  refine ⟨place_perm ordered hIds hOrder, ?_, ?_⟩
  · intro front o rest hSplit id hId
    exact ((place_inOrder ordered hOrder).ready ordered front o rest hSplit id hId).resolve_right
      List.not_mem_nil
  · intro front o rest hSplit other hOther hReady
    exact place_greedy hIds ordered (List.Sublist.refl operators) hOrder front o rest hSplit other
      hOther fun id hId => Or.inl (hReady id hId)

/-- Placing fails only where nothing that is left is ready. -/
theorem error_of_place (steps : Nat) :
    ∀ {placed : List String} {remaining : List Operator} {e : Error},
      place steps placed remaining = .error e → ∃ o ∈ remaining, e = .task o.id .neverReady := by
  induction steps with
  | zero =>
      intro placed remaining e hPlace
      cases remaining with
      | nil => cases hPlace
      | cons o rest =>
          cases hPlace
          exact ⟨o, List.mem_cons_self, rfl⟩
  | succ steps ih =>
      intro placed remaining e hPlace
      cases remaining with
      | nil => cases hPlace
      | cons o rest =>
          rw [place] at hPlace
          split at hPlace
          · cases hPlace
            exact ⟨o, List.mem_cons_self, rfl⟩
          next next hNext =>
            rcases bind_eq_error_iff.mp hPlace with hOthers | ⟨others, -, hPure⟩
            · obtain ⟨stuck, hStuck, hError⟩ := ih hOthers
              exact ⟨stuck, (mem_without.mp hStuck).1, hError⟩
            · cases hPure

end Steps

/-- Some order of the operators has each of them behind all that it waits on. -/
def Orderable (operators : List Operator) : Prop :=
  ∃ ordered, ordered.Perm operators ∧ InOrder [] ordered

section Orderable

variable {operators : List Operator}

/-- Behind ids that are grounded, the operators of an order are grounded one after the other. -/
theorem InOrder.grounded {ordered : List Operator} (hMem : ordered ⊆ operators) :
    ∀ {placed : List String}, InOrder placed ordered →
      (∀ id ∈ placed, Wiring.Grounded operators id) →
      ∀ o ∈ ordered, Wiring.Grounded operators o.id := by
  induction ordered with
  | nil => exact fun _ _ _ hNone => absurd hNone List.not_mem_nil
  | cons head rest ih =>
      intro placed hOrder hPlaced
      obtain ⟨hHead, hRest⟩ := List.cons_subset.mp hMem
      have hOwn : Wiring.Grounded operators head.id :=
        .intro hHead fun id hId => hPlaced id (hOrder.1 id hId)
      refine List.forall_mem_cons.mpr ⟨hOwn, ih hRest hOrder.2 ?_⟩
      exact List.forall_mem_cons.mpr ⟨hOwn, hPlaced⟩

theorem Orderable.grounded (hOrderable : Orderable operators) :
    ∀ o ∈ operators, Wiring.Grounded operators o.id := by
  obtain ⟨ordered, hPerm, hOrder⟩ := hOrderable
  intro o hMem
  exact hOrder.grounded hPerm.subset (fun _ hNone => absurd hNone List.not_mem_nil) o
    (hPerm.mem_iff.mpr hMem)

/-- Among finitely many ids, chains of ids end where no id waits on itself. -/
theorem acc_of_acyclic
    (hNamed : ∀ o ∈ operators, ∀ id ∈ o.predecessors, ∃ other ∈ operators, other.id = id)
    (hAcyclic : ∀ id, ¬Relation.TransGen (Precedes operators) id id) :
    ∀ o ∈ operators, Acc (Precedes operators) o.id := by
  -- On the ids of operators, of which there are finitely many, waiting is a strict order.
  let Id := { id : String // id ∈ operators.map Operator.id }
  let before : Id → Id → Prop := fun a b => Relation.TransGen (Precedes operators) a.1 b.1
  have hFinite : Finite Id := Finite.of_fintype { id : String // id ∈ operators.map Operator.id }
  have hTrans : IsTrans Id before := ⟨fun _ _ _ => Relation.TransGen.trans⟩
  have hIrrefl : Std.Irrefl before := ⟨fun id => hAcyclic id.1⟩
  have hChains : WellFounded before := Finite.wellFounded_of_trans_of_irrefl before
  have hAcc : ∀ id : Id, Acc (Precedes operators) id.1 := by
    intro id
    induction id using hChains.induction with
    | h id ih =>
        constructor
        rintro name ⟨o, hMem, hId, hName⟩
        obtain ⟨other, hOther, rfl⟩ := hNamed o hMem name hName
        exact ih ⟨other.id, List.mem_map_of_mem hOther⟩ (.single ⟨o, hMem, hId, hName⟩)
  exact fun o hMem => hAcc ⟨o.id, List.mem_map_of_mem hMem⟩

/-- Operators with distinct ids have an order exactly where all that is waited on is there and no id
waits on itself. -/
theorem orderable_iff (hIds : (operators.map Operator.id).Nodup) : Orderable operators ↔
    (∀ o ∈ operators, ∀ id ∈ o.predecessors, ∃ other ∈ operators, other.id = id) ∧
      ∀ id, ¬Relation.TransGen (Precedes operators) id id := by
  constructor
  · intro hOrderable
    have hGrounded := hOrderable.grounded
    constructor
    · intro o hMem id hId
      exact ((hGrounded o hMem).before hIds hMem id hId).exists_operator
    · intro id hSelf
      obtain ⟨_, -, o, hMem, rfl, -⟩ := Relation.TransGen.tail'_iff.mp hSelf
      exact not_transGen_self ((hGrounded o hMem).acc hIds) hSelf
  · rintro ⟨hNamed, hAcyclic⟩
    obtain ⟨ordered, -, hPerm, hOrder⟩ :=
      exists_order hIds hNamed (acc_of_acyclic hNamed hAcyclic)
    exact ⟨ordered, hPerm, hOrder⟩

/-- Ordering succeeds on all operators that have an order. -/
theorem exists_order_iff (hIds : (operators.map Operator.id).Nodup) :
    (∃ ordered, order operators = .ok ordered) ↔ Orderable operators := by
  constructor
  · rintro ⟨ordered, hOrder⟩
    exact ⟨ordered, place_perm ordered hIds hOrder, place_inOrder ordered hOrder⟩
  · intro hOrderable
    obtain ⟨hNamed, hAcyclic⟩ := (orderable_iff hIds).mp hOrderable
    obtain ⟨ordered, hOrder, -⟩ := exists_order hIds hNamed (acc_of_acyclic hNamed hAcyclic)
    exact ⟨ordered, hOrder⟩

end Orderable

end Layout
end WorkflowDag
