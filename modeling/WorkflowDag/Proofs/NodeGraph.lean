import Mathlib.Data.List.Basic
import Mathlib.Data.List.Perm.Subperm
import Mathlib.Logic.Relation
import WorkflowDag.Proofs.Success
import WorkflowDag.Workflow.Basic

/-!
# Reachability and the order of nodes

Transitions make the nodes of a workflow a graph.  The depth-first search that refuses cycles
leaves a list of finished names in which every name stands before all names that its transitions
lead to.  This module extracts that order from the search:

* `Ordered` is the property of the list, `visit_ordered` says that every visit keeps it;
* `exists_rank_of_checkAcyclic` turns the list into a rank that grows along every transition out of
  a reachable node, so that no reachable node lies on a cycle.
-/

namespace WorkflowDag
namespace Workflow

/-- A transition of the node named `source` leads to `target`. -/
def Leads (nodes : List Node) (source target : String) : Prop :=
  target ∈ targets nodes source

/-- Transitions of any kind lead from the start to the node of that name. -/
def Reachable (nodes : List Node) : String → Prop :=
  Relation.ReflTransGen (Leads nodes) Node.startName

section Lookup

variable {nodes : List Node} {name : String} {node : Node}

theorem name_of_find? (hFind : find? nodes name = some node) : node.name = name := by
  have hName := List.find?_some hFind
  exact eq_of_beq hName

theorem mem_of_find? (hFind : find? nodes name = some node) : node ∈ nodes :=
  List.mem_of_find?_eq_some hFind

/-- With distinct names, every node is found under its own name. -/
theorem find?_name (hDistinct : (nodes.map Node.name).Nodup) (hNode : node ∈ nodes) :
    find? nodes node.name = some node := by
  induction nodes with
  | nil => exact absurd hNode (List.not_mem_nil)
  | cons first rest ih =>
      rw [List.map_cons, List.nodup_cons] at hDistinct
      unfold find?
      rw [List.find?_cons]
      rcases List.mem_cons.mp hNode with rfl | hRest
      · simp
      · have hOther : first.name ≠ node.name := by
          intro hSame
          exact hDistinct.1 (hSame ▸ List.mem_map_of_mem hRest)
        rw [beq_eq_false_iff_ne.mpr hOther]
        exact ih hDistinct.2 hRest

theorem leads_iff (hFind : find? nodes name = some node) {target : String} :
    Leads nodes name target ↔ ∃ t ∈ node.transitions, t.target = target := by
  unfold Leads targets
  rw [hFind]
  exact List.mem_map

theorem Leads.exists_find? {target : String} (hLeads : Leads nodes name target) :
    ∃ node, find? nodes name = some node := by
  cases hFind : find? nodes name with
  | some node => exact ⟨node, rfl⟩
  | none =>
      unfold Leads targets at hLeads
      rw [hFind] at hLeads
      exact absurd hLeads (List.not_mem_nil)

/-- Distinct names of nodes are no more than there are nodes. -/
theorem length_le_of_find? {names : List String} (hDistinct : names.Nodup)
    (hNames : ∀ other ∈ names, ∃ node, find? nodes other = some node) :
    names.length ≤ nodes.length := by
  have hSubset : names ⊆ nodes.map Node.name := by
    intro other hOther
    obtain ⟨node, hFind⟩ := hNames other hOther
    exact List.mem_map.mpr ⟨node, mem_of_find? hFind, name_of_find? hFind⟩
  have hLength := (hDistinct.subperm hSubset).length_le
  rwa [List.length_map] at hLength

end Lookup

/-- What is in hand while a node is looked at: different nodes, each leading to it.  With the levels
left they are more than there are nodes. -/
structure Enclosed (nodes : List Node) (levels : Nat) (outside : List String) (name : String) :
    Prop where
  distinct : outside.Nodup
  around : ∀ outer ∈ outside, (∃ node, find? nodes outer = some node) ∧
    Relation.TransGen (Leads nodes) outer name
  levels : nodes.length < levels + outside.length

section Nesting

variable {nodes : List Node} {levels : Nat} {outside : List String} {name inner : String}

theorem Enclosed.outermost (nodes : List Node) (name : String) :
    Enclosed nodes (nodes.length + 1) [] name :=
  ⟨List.nodup_nil, fun _ hOuter => absurd hOuter List.not_mem_nil, Nat.lt_succ_self _⟩

theorem Enclosed.levels_ne_zero (hEnclosed : Enclosed nodes levels outside name) :
    levels ≠ 0 := by
  have hLength := length_le_of_find? hEnclosed.distinct
    fun outer hOuter => (hEnclosed.around outer hOuter).1
  have hLevels := hEnclosed.levels
  omega

/-- Where no cycle leads through it, a node does not enclose itself. -/
theorem Enclosed.notMem (hEnclosed : Enclosed nodes levels outside name)
    (hAcyclic : ¬Relation.TransGen (Leads nodes) name name) : name ∉ outside :=
  fun hMem => hAcyclic (hEnclosed.around name hMem).2

theorem Enclosed.nest (hEnclosed : Enclosed nodes (levels + 1) outside name)
    (hNew : name ∉ outside) {node : Node}
    (hFind : find? nodes name = some node) (hInner : Relation.TransGen (Leads nodes) name inner) :
    Enclosed nodes levels (name :: outside) inner where
  distinct := List.nodup_cons.mpr ⟨hNew, hEnclosed.distinct⟩
  around := by
    intro outer hOuter
    rcases List.mem_cons.mp hOuter with rfl | hFurther
    · exact ⟨⟨node, hFind⟩, hInner⟩
    · obtain ⟨hFound, hLeads⟩ := hEnclosed.around outer hFurther
      exact ⟨hFound, hLeads.trans hInner⟩
  levels := by
    have hLevels := hEnclosed.levels
    rw [List.length_cons]
    omega

theorem Enclosed.perm (hEnclosed : Enclosed nodes levels outside name) {others : List String}
    (hPerm : others.Perm outside) : Enclosed nodes levels others name where
  distinct := hPerm.nodup_iff.mpr hEnclosed.distinct
  around := fun outer hOuter => hEnclosed.around outer (hPerm.mem_iff.mp hOuter)
  levels := hPerm.length_eq ▸ hEnclosed.levels

end Nesting

theorem Reachable.start (nodes : List Node) : Reachable nodes Node.startName :=
  Relation.ReflTransGen.refl

theorem Reachable.step {nodes : List Node} {name target : String}
    (hName : Reachable nodes name) (hLeads : Leads nodes name target) :
    Reachable nodes target :=
  Relation.ReflTransGen.tail hName hLeads

theorem Reachable.trans {nodes : List Node} {name target : String}
    (hName : Reachable nodes name) (hPath : Relation.TransGen (Leads nodes) name target) :
    Reachable nodes target :=
  Relation.ReflTransGen.trans hName hPath.to_reflTransGen

/-- Every name stands before all names that its transitions lead to, and none stands there twice. -/
inductive Ordered (nodes : List Node) : List String → Prop
  | nil : Ordered nodes []
  | cons {name : String} {rest : List String} (hFresh : name ∉ rest)
      (hTargets : ∀ target, Leads nodes name target → target ∈ rest)
      (hRest : Ordered nodes rest) : Ordered nodes (name :: rest)

/-- What a successful search adds to the names finished before it: nothing on the path to it. -/
structure Finishes (nodes : List Node) (path before after : List String) : Prop where
  ordered : Ordered nodes after
  grows : before ⊆ after
  offPath : ∀ name ∈ after, name ∈ before ∨ name ∉ path

theorem Finishes.trans {nodes : List Node} {path first second third : List String}
    (hFirst : Finishes nodes path first second) (hSecond : Finishes nodes path second third) :
    Finishes nodes path first third where
  ordered := hSecond.ordered
  grows := List.Subset.trans hFirst.grows hSecond.grows
  offPath := by
    intro name hName
    rcases hSecond.offPath name hName with hEarlier | hOff
    · exact hFirst.offPath name hEarlier
    · exact Or.inr hOff

/-- A fold of visits finishes all its names when each visit finishes its own. -/
private theorem foldlM_finishes {nodes : List Node} {path : List String}
    {visitOne : List String → String → Except Error (List String)}
    (hOne : ∀ before name after, Ordered nodes before → visitOne before name = .ok after →
      Finishes nodes path before after ∧ name ∈ after) :
    ∀ (names before after : List String), Ordered nodes before →
      names.foldlM visitOne before = .ok after →
      Finishes nodes path before after ∧ ∀ name ∈ names, name ∈ after := by
  intro names
  induction names with
  | nil =>
      intro before after hBefore hFold
      rw [List.foldlM_nil] at hFold
      cases hFold
      exact ⟨⟨hBefore, List.Subset.refl _, fun name hName => Or.inl hName⟩,
        fun name hName => absurd hName (List.not_mem_nil)⟩
  | cons first rest ih =>
      intro before after hBefore hFold
      rw [List.foldlM_cons] at hFold
      obtain ⟨between, hVisit, hFold⟩ := bind_eq_ok_iff.mp hFold
      obtain ⟨hFirst, hFirstMem⟩ := hOne before first between hBefore hVisit
      obtain ⟨hRest, hRestMem⟩ := ih between after hFirst.ordered hFold
      refine ⟨hFirst.trans hRest, ?_⟩
      intro name hName
      rcases List.mem_cons.mp hName with rfl | hLater
      · exact hRest.grows hFirstMem
      · exact hRestMem name hLater

/-- Every visit keeps the order of finished names and finishes its own name. -/
theorem visit_ordered (nodes : List Node) (steps : Nat) :
    ∀ (path before : List String) (name : String) (after : List String), Ordered nodes before →
      visit nodes steps path before name = .ok after →
      Finishes nodes path before after ∧ name ∈ after := by
  induction steps with
  | zero =>
      intro path before name after _ hVisit
      cases hVisit
  | succ steps ih =>
      intro path before name after hBefore hVisit
      rw [visit] at hVisit
      by_cases hOnPath : path.contains name = true
      · rw [if_pos hOnPath] at hVisit
        cases hVisit
      rw [if_neg hOnPath] at hVisit
      by_cases hDone : before.contains name = true
      · rw [if_pos hDone] at hVisit
        cases hVisit
        exact ⟨⟨hBefore, List.Subset.refl _, fun other hOther => Or.inl hOther⟩,
          List.contains_iff_mem.mp hDone⟩
      rw [if_neg hDone] at hVisit
      obtain ⟨between, hFold, hAfter⟩ := bind_eq_ok_iff.mp hVisit
      cases hAfter
      obtain ⟨hBetween, hTargets⟩ := foldlM_finishes (ih (path ++ [name]))
        (targets nodes name) before between hBefore hFold
      -- The name is on the path of every inner visit, so none of them has finished it.
      have hFresh : name ∉ between := by
        intro hMem
        rcases hBetween.offPath name hMem with hEarlier | hOff
        · exact hDone (List.contains_iff_mem.mpr hEarlier)
        · exact hOff (List.mem_append_right path (List.mem_singleton.mpr rfl))
      refine ⟨⟨Ordered.cons hFresh hTargets hBetween.ordered, ?_, ?_⟩, List.mem_cons_self⟩
      · exact fun other hOther => List.mem_cons_of_mem name (hBetween.grows hOther)
      · intro other hOther
        rcases List.mem_cons.mp hOther with rfl | hInner
        · exact Or.inr fun hMem => hOnPath (List.contains_iff_mem.mpr hMem)
        · rcases hBetween.offPath other hInner with hEarlier | hOff
          · exact Or.inl hEarlier
          · exact Or.inr fun hMem => hOff (List.mem_append_left [name] hMem)

/-- A list in order is closed under transitions. -/
theorem Ordered.mem_of_leads {nodes : List Node} {names : List String}
    (hOrdered : Ordered nodes names) {name target : String} (hName : name ∈ names)
    (hLeads : Leads nodes name target) : target ∈ names := by
  induction hOrdered with
  | nil => exact absurd hName (List.not_mem_nil)
  | cons hFresh hTargets hRest ih =>
      rcases List.mem_cons.mp hName with rfl | hLater
      · exact List.mem_cons_of_mem _ (hTargets target hLeads)
      · exact List.mem_cons_of_mem _ (ih hLater)

/-- In a list in order, transitions lead to later positions. -/
theorem Ordered.idxOf_lt_idxOf {nodes : List Node} {names : List String}
    (hOrdered : Ordered nodes names) {name target : String} (hName : name ∈ names)
    (hLeads : Leads nodes name target) : names.idxOf name < names.idxOf target := by
  induction hOrdered with
  | nil => exact absurd hName (List.not_mem_nil)
  | @cons first rest hFresh hTargets hRest ih =>
      have hTargetMem : target ∈ rest := by
        rcases List.mem_cons.mp hName with rfl | hLater
        · exact hTargets target hLeads
        · exact hRest.mem_of_leads hLater hLeads
      have hTargetNe : first ≠ target := fun hSame => hFresh (hSame ▸ hTargetMem)
      rw [List.idxOf_cons_ne rest hTargetNe]
      rcases List.mem_cons.mp hName with rfl | hLater
      · rw [List.idxOf_cons_self]
        exact Nat.succ_pos _
      · have hNameNe : first ≠ name := fun hSame => hFresh (hSame ▸ hLater)
        rw [List.idxOf_cons_ne rest hNameNe]
        exact Nat.succ_lt_succ (ih hLater)

/-- A rank of names that grows along every transition out of a reachable node. -/
def IsRank (nodes : List Node) (rank : String → Nat) : Prop :=
  ∀ name target, Reachable nodes name → Leads nodes name target → rank name < rank target

/-- Whatever passes the check for cycles has a rank. -/
theorem exists_rank_of_checkAcyclic {nodes : List Node}
    (hCheck : checkAcyclic nodes Node.startName = .ok ()) : ∃ rank, IsRank nodes rank := by
  unfold checkAcyclic at hCheck
  obtain ⟨names, hVisit, -⟩ := bind_eq_ok_iff.mp hCheck
  obtain ⟨hFinishes, hStart⟩ :=
    visit_ordered nodes _ [] [] Node.startName names Ordered.nil hVisit
  -- The search began at the start, so the names it finished are closed under reachability.
  have hMem : ∀ name, Reachable nodes name → name ∈ names := by
    intro name hName
    induction hName with
    | refl => exact hStart
    | tail _ hLeads ih => exact hFinishes.ordered.mem_of_leads ih hLeads
  exact ⟨fun name => names.idxOf name, fun name target hName hLeads =>
    hFinishes.ordered.idxOf_lt_idxOf (hMem name hName) hLeads⟩

theorem IsRank.lt_of_transGen {nodes : List Node} {rank : String → Nat}
    (hRank : IsRank nodes rank) {name target : String} (hName : Reachable nodes name)
    (hPath : Relation.TransGen (Leads nodes) name target) : rank name < rank target := by
  induction hPath with
  | single hLeads => exact hRank _ _ hName hLeads
  | tail hBefore hLeads ih => exact Nat.lt_trans ih (hRank _ _ (hName.trans hBefore) hLeads)

end Workflow
end WorkflowDag
