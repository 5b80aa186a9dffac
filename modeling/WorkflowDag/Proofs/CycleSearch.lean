import Mathlib.Data.List.Chain
import Mathlib.Data.List.Nodup
import WorkflowDag.Proofs.NodeGraph

/-!
# The search for cycles is exact

A depth-first search keeps the path that leads to the node it visits and the nodes it has finished.
It fails when it comes to a node on its path.  This module relates the search to the cycles of the
graph, for any nodes and any start:

* `Way` is what holds of the path at every visit.  Its names are distinct names of nodes, so the
  path is never longer than the list of nodes and the search never runs out of steps.
* `ClosesCycle` is what a failed search reports: a path from the start along transitions into a node
  on the path (`visit_closes_cycle`).
* A search that succeeds leaves a list in which transitions lead to later positions only, so no
  cycle can be reached (`not_cycle_of_checkAcyclic`).

Main statement: `cycle_search_exact`.
-/

namespace WorkflowDag
namespace Workflow

/-- The path leads along transitions from the start to the node that is visited, and no name occurs
on it twice. -/
structure Way (nodes : List Node) (start : String) (path : List String) (name : String) : Prop where
  begins : (path ++ [name]).head? = some start
  chain : (path ++ [name]).IsChain (Leads nodes)
  distinct : path.Nodup

/-- The path leads along transitions from the start into a node that stands on it. -/
structure ClosesCycle (nodes : List Node) (start : String) (path : List String) (name : String) :
    Prop where
  begins : path.head? = some start
  chain : (path ++ [name]).IsChain (Leads nodes)
  closed : name ∈ path

section Ways

variable {nodes : List Node} {start name target : String} {path : List String}

theorem Way.here (nodes : List Node) (start : String) : Way nodes start [] start :=
  ⟨rfl, List.isChain_singleton start, List.nodup_nil⟩

/-- A transition out of a node that is new to the path takes the way one step further. -/
theorem Way.step (hWay : Way nodes start path name) (hNew : name ∉ path)
    (hLeads : Leads nodes name target) : Way nodes start (path ++ [name]) target where
  begins := by
    have hBegins := hWay.begins
    cases path with
    | nil => exact hBegins
    | cons first rest => exact hBegins
  chain := by
    rw [List.append_assoc, List.singleton_append, List.isChain_append_cons_cons]
    exact ⟨hWay.chain, hLeads, List.isChain_singleton target⟩
  distinct := by
    rw [← List.concat_eq_append]
    exact List.Nodup.concat hNew hWay.distinct

/-- Each name on the path leads on, so it is the name of a node. -/
theorem Way.exists_find? (hWay : Way nodes start path name) {other : String}
    (hOther : other ∈ path) : ∃ node, find? nodes other = some node := by
  obtain ⟨before, after, rfl⟩ := List.append_of_mem hOther
  have hChain := hWay.chain
  rw [List.append_assoc] at hChain
  have hRest : (other :: (after ++ [name])).IsChain (Leads nodes) := hChain.right_of_append
  cases after with
  | nil => exact (List.isChain_pair.mp hRest).exists_find?
  | cons next after => exact (List.isChain_cons_cons.mp hRest).1.exists_find?

theorem Way.length_le (hWay : Way nodes start path name) : path.length ≤ nodes.length :=
  length_le_of_find? hWay.distinct fun _ hOther => hWay.exists_find? hOther

/-- A way into a node on its own path closes a cycle. -/
theorem Way.closesCycle (hWay : Way nodes start path name) (hClosed : name ∈ path) :
    ClosesCycle nodes start path name where
  begins := by
    have hBegins := hWay.begins
    cases path with
    | nil => exact absurd hClosed List.not_mem_nil
    | cons first rest => exact hBegins
  chain := hWay.chain
  closed := hClosed

/-- What a failed search reports is a cycle that can be reached from the start. -/
theorem ClosesCycle.exists_cycle (hCloses : ClosesCycle nodes start path name) :
    Relation.ReflTransGen (Leads nodes) start name ∧ Relation.TransGen (Leads nodes) name name := by
  obtain ⟨before, after, rfl⟩ := List.append_of_mem hCloses.closed
  have hChain := hCloses.chain
  rw [List.append_assoc, List.cons_append, List.isChain_split] at hChain
  obtain ⟨hBefore, hAround⟩ := hChain
  constructor
  · cases before with
    | nil =>
        obtain rfl : name = start := Option.some.inj hCloses.begins
        exact .refl
    | cons first rest =>
        obtain rfl : first = start := Option.some.inj hCloses.begins
        exact List.relationReflTransGen_of_exists_isChain_cons _ hBefore (by simp)
  · -- The cycle leaves the node along a first transition and then comes back to it.
    cases after with
    | nil => exact .single (List.isChain_pair.mp hAround)
    | cons next after =>
        obtain ⟨hFirst, hRest⟩ := List.isChain_cons_cons.mp hAround
        exact .head' hFirst (List.relationReflTransGen_of_exists_isChain_cons _ hRest (by simp))

end Ways

section Search

variable {nodes : List Node} {start : String}

/-- A search with steps enough for a path through all nodes fails only where it closes a cycle. -/
theorem visit_closes_cycle (steps : Nat) :
    ∀ (path done : List String) (name : String) (e : Error), Way nodes start path name →
      nodes.length < path.length + steps → visit nodes steps path done name = .error e →
      ∃ closing cycle, e = .cycle closing cycle ∧ ClosesCycle nodes start cycle closing := by
  induction steps with
  | zero =>
      intro path done name e hWay hSteps _
      have hLength := hWay.length_le
      omega
  | succ steps ih =>
      intro path done name e hWay hSteps hVisit
      rw [visit] at hVisit
      by_cases hOnPath : path.contains name = true
      · rw [if_pos hOnPath] at hVisit
        cases hVisit
        exact ⟨name, path, rfl, hWay.closesCycle (List.contains_iff_mem.mp hOnPath)⟩
      rw [if_neg hOnPath] at hVisit
      by_cases hDone : done.contains name = true
      · rw [if_pos hDone] at hVisit
        cases hVisit
      rw [if_neg hDone] at hVisit
      rcases bind_eq_error_iff.mp hVisit with hFold | ⟨after, -, hAfter⟩
      · -- One of the targets could not be visited.
        obtain ⟨target, hTarget, before, hFails⟩ := exists_error_of_foldlM hFold
        have hNew : name ∉ path := fun hMem => hOnPath (List.contains_iff_mem.mpr hMem)
        refine ih (path ++ [name]) before target e (hWay.step hNew hTarget) ?_ hFails
        rw [List.length_append, List.length_singleton]
        omega
      · cases hAfter

/-- More steps than a path through all nodes takes change nothing. -/
theorem visit_steps_succ (steps : Nat) :
    ∀ (path done : List String) (name : String), Way nodes start path name →
      nodes.length < path.length + steps →
      visit nodes (steps + 1) path done name = visit nodes steps path done name := by
  induction steps with
  | zero =>
      intro path done name hWay hSteps
      have hLength := hWay.length_le
      omega
  | succ steps ih =>
      intro path done name hWay hSteps
      rw [visit, visit]
      by_cases hOnPath : path.contains name = true
      · rw [if_pos hOnPath, if_pos hOnPath]
      rw [if_neg hOnPath, if_neg hOnPath]
      have hTargets : (targets nodes name).foldlM (fun acc target =>
            visit nodes (steps + 1) (path ++ [name]) acc target) done =
          (targets nodes name).foldlM (fun acc target =>
            visit nodes steps (path ++ [name]) acc target) done := by
        apply foldlM_congr_of_mem
        intro acc target hTarget
        have hNew : name ∉ path := fun hMem => hOnPath (List.contains_iff_mem.mpr hMem)
        apply ih (path ++ [name]) acc target (hWay.step hNew hTarget)
        rw [List.length_append, List.length_singleton]
        omega
      rw [hTargets]

theorem visit_steps_eq {steps : Nat} (hSteps : nodes.length < steps) :
    visit nodes steps [] [] start = visit nodes (nodes.length + 1) [] [] start := by
  obtain ⟨extra, rfl⟩ := Nat.exists_eq_add_of_lt hSteps
  induction extra with
  | zero => rfl
  | succ extra ih =>
      have hMore : nodes.length < ([] : List String).length + (nodes.length + extra + 1) := by
        simp only [List.length_nil]
        omega
      rw [← ih (by omega)]
      exact visit_steps_succ (nodes.length + extra + 1) [] [] start (.here nodes start) hMore

/-- A search that fails reports a cycle. -/
theorem exists_closesCycle_of_checkAcyclic {e : Error}
    (hCheck : checkAcyclic nodes start = .error e) :
    ∃ name path, e = .cycle name path ∧ ClosesCycle nodes start path name := by
  rcases bind_eq_error_iff.mp hCheck with hVisit | ⟨done, -, hDone⟩
  · exact visit_closes_cycle (nodes.length + 1) [] [] start e (.here nodes start) (by simp) hVisit
  · cases hDone

/-- Where the search succeeds, no cycle can be reached. -/
theorem not_cycle_of_checkAcyclic (hCheck : checkAcyclic nodes start = .ok ()) {name : String}
    (hName : Relation.ReflTransGen (Leads nodes) start name) :
    ¬Relation.TransGen (Leads nodes) name name := by
  obtain ⟨names, hVisit, -⟩ := bind_eq_ok_iff.mp hCheck
  obtain ⟨hFinishes, hStart⟩ := visit_ordered nodes _ [] [] start names Ordered.nil hVisit
  have hMem : ∀ {other : String}, Relation.ReflTransGen (Leads nodes) start other →
      other ∈ names := by
    intro other hOther
    induction hOther with
    | refl => exact hStart
    | tail _ hLeads ih => exact hFinishes.ordered.mem_of_leads ih hLeads
  -- Along transitions positions grow, so no way leads back to where it began.
  have hGrows : ∀ {target : String}, Relation.TransGen (Leads nodes) name target →
      names.idxOf name < names.idxOf target := by
    intro target hPath
    induction hPath with
    | single hLeads => exact hFinishes.ordered.idxOf_lt_idxOf (hMem hName) hLeads
    | tail hBefore hLeads ih =>
        have hBetween := hMem (hName.trans hBefore.to_reflTransGen)
        exact ih.trans (hFinishes.ordered.idxOf_lt_idxOf hBetween hLeads)
  exact fun hCycle => Nat.lt_irrefl _ (hGrows hCycle)

/-- Where no cycle can be reached, the search succeeds. -/
theorem checkAcyclic_of_not_cycle
    (hAcyclic : ∀ name, Relation.ReflTransGen (Leads nodes) start name →
    ¬Relation.TransGen (Leads nodes) name name) : checkAcyclic nodes start = .ok () := by
  cases hCheck : checkAcyclic nodes start with
  | ok done => rfl
  | error e =>
      obtain ⟨name, path, -, hCloses⟩ := exists_closesCycle_of_checkAcyclic hCheck
      exact absurd hCloses.exists_cycle.2 (hAcyclic name hCloses.exists_cycle.1)

end Search

/-- The search for cycles is exact: the bound on its steps never cuts it short, it fails exactly
when a cycle can be reached from the start, and then it reports a path from the start along
transitions into a node that stands on the path. -/
theorem cycle_search_exact (nodes : List Node) (start : String) :
    (∀ steps, nodes.length < steps →
      visit nodes steps [] [] start = visit nodes (nodes.length + 1) [] [] start) ∧
    ((∃ e, checkAcyclic nodes start = .error e) ↔
      ∃ name, Relation.ReflTransGen (Leads nodes) start name ∧
        Relation.TransGen (Leads nodes) name name) ∧
    ∀ e, checkAcyclic nodes start = .error e →
      ∃ name path, e = .cycle name path ∧ path.head? = some start ∧
        (path ++ [name]).IsChain (Leads nodes) ∧ name ∈ path := by
  refine ⟨fun steps => visit_steps_eq, ⟨?_, ?_⟩, ?_⟩
  · rintro ⟨e, hCheck⟩
    obtain ⟨name, path, -, hCloses⟩ := exists_closesCycle_of_checkAcyclic hCheck
    exact ⟨name, hCloses.exists_cycle⟩
  · rintro ⟨name, hReachable, hCycle⟩
    cases hCheck : checkAcyclic nodes start with
    | error e => exact ⟨e, rfl⟩
    | ok done => exact absurd hCycle (not_cycle_of_checkAcyclic hCheck hReachable)
  · intro e hCheck
    obtain ⟨name, path, rfl, hCloses⟩ := exists_closesCycle_of_checkAcyclic hCheck
    exact ⟨name, path, rfl, hCloses.begins, hCloses.chain, hCloses.closed⟩

end Workflow
end WorkflowDag
