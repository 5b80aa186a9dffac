import WorkflowDag.Proofs.NodeElements
import WorkflowDag.Proofs.NodeGraph

/-!
# Links between nodes

A transition dangles when no node has the name that it gives.  The vertices of nodes can be made
when no transition dangles (`exists_vertices_iff`), and otherwise the error names the transition
that dangles first (`vertices_eq_error_iff`).  Checking the links is making the vertices, so the
same holds of it (`checkLinks_eq_ok_iff`, `checkLinks_eq_error_iff`).
-/

namespace WorkflowDag
namespace Workflow

/-- The transition leads to none of the nodes. -/
def Dangles (nodes : List Node) (t : Transition) : Prop :=
  ∀ other ∈ nodes, other.name ≠ t.target

/-- No transition of the nodes before dangles, nor one of this node before this one. -/
structure FirstDangling (nodes : List Node) (node : Node) (t : Transition) : Prop where
  first : ∃ before after, nodes = before ++ node :: after ∧
    ∀ other ∈ before, ∀ u ∈ other.transitions, ¬Dangles nodes u
  next : ∃ before after, node.transitions = before ++ t :: after ∧ ∀ u ∈ before, ¬Dangles nodes u
  dangles : Dangles nodes t

section Edges

variable {nodes : List Node} {node : Node} {t : Transition}

theorem edgeOf_eq_ok_iff {edge : Edge} : edgeOf nodes node t = .ok edge ↔
    edge.kind = t.kind ∧ edge.guard = t.guard ∧
      (nodes.findIdx? fun other => other.name == t.target) = some edge.target := by
  unfold edgeOf
  cases nodes.findIdx? fun other => other.name == t.target with
  | none => simp
  | some place =>
      constructor
      · intro hEdge
        cases hEdge
        exact ⟨rfl, rfl, rfl⟩
      · rintro ⟨hKind, hGuard, hPlace⟩
        rw [← hKind, ← hGuard, Option.some.inj hPlace]

theorem edgeOf_eq_error_iff {e : Error} : edgeOf nodes node t = .error e ↔
    Dangles nodes t ∧ e = .danglingReference node.name t.target := by
  have hNone : (nodes.findIdx? fun other => other.name == t.target) = none ↔ Dangles nodes t := by
    rw [List.findIdx?_eq_none_iff]
    exact forall₂_congr fun other _ => beq_eq_false_iff_ne
  rw [← hNone, edgeOf]
  cases nodes.findIdx? fun other => other.name == t.target with
  | none =>
      simp only [Except.error.injEq, true_and]
      exact eq_comm
  | some place => simp

theorem exists_edgeOf_iff : (∃ edge, edgeOf nodes node t = .ok edge) ↔ ¬Dangles nodes t := by
  constructor
  · rintro ⟨edge, hEdge⟩ hDangles
    rw [edgeOf_eq_error_iff.mpr ⟨hDangles, rfl⟩] at hEdge
    cases hEdge
  · intro hLeads
    cases hEdge : edgeOf nodes node t with
    | ok edge => exact ⟨edge, rfl⟩
    | error e => exact absurd (edgeOf_eq_error_iff.mp hEdge).1 hLeads

theorem vertexOf_eq_ok_iff {vertex : Vertex} : vertexOf nodes node = .ok vertex ↔
    vertex.node = node ∧
      List.Forall₂ (fun t edge => edgeOf nodes node t = .ok edge) node.transitions vertex.next := by
  rw [vertexOf, bind_eq_ok_iff]
  constructor
  · rintro ⟨next, hNext, hVertex⟩
    cases hVertex
    exact ⟨rfl, mapM_eq_ok_iff.mp hNext⟩
  · rintro ⟨rfl, hNext⟩
    exact ⟨vertex.next, mapM_eq_ok_iff.mpr hNext, rfl⟩

theorem vertexOf_eq_error_iff {e : Error} : vertexOf nodes node = .error e ↔
    ∃ t, (∃ before after, node.transitions = before ++ t :: after ∧
      ∀ u ∈ before, ¬Dangles nodes u) ∧ Dangles nodes t ∧
      e = .danglingReference node.name t.target := by
  have hMap : vertexOf nodes node = .error e ↔
      node.transitions.mapM (edgeOf nodes node) = .error e := by
    rw [vertexOf, bind_eq_error_iff]
    exact or_iff_left (by rintro ⟨next, -, hVertex⟩; cases hVertex)
  rw [hMap, mapM_eq_error_iff]
  constructor
  · rintro ⟨before, t, after, hSplit, hBefore, hFails⟩
    exact ⟨t, ⟨before, after, hSplit, fun u hU => exists_edgeOf_iff.mp (hBefore u hU)⟩,
      edgeOf_eq_error_iff.mp hFails⟩
  · rintro ⟨t, ⟨before, after, hSplit, hBefore⟩, hFails⟩
    exact ⟨before, t, after, hSplit, fun u hU => exists_edgeOf_iff.mpr (hBefore u hU),
      edgeOf_eq_error_iff.mpr hFails⟩

theorem exists_vertexOf_iff : (∃ vertex, vertexOf nodes node = .ok vertex) ↔
    ∀ t ∈ node.transitions, ¬Dangles nodes t := by
  rw [← forall₂_congr fun t (_ : t ∈ node.transitions) => @exists_edgeOf_iff nodes node t,
    ← exists_mapM_iff]
  constructor
  · rintro ⟨vertex, hVertex⟩
    obtain ⟨next, hNext, -⟩ := bind_eq_ok_iff.mp hVertex
    exact ⟨next, hNext⟩
  · rintro ⟨next, hNext⟩
    exact ⟨⟨node, next⟩, bind_eq_ok_iff.mpr ⟨next, hNext, rfl⟩⟩

end Edges

section Vertices

variable {nodes : List Node}

/-- Making the vertices fails exactly with the reference that dangles first. -/
theorem vertices_eq_error_iff {e : Error} : vertices nodes = .error e ↔
    ∃ node t, FirstDangling nodes node t ∧ e = .danglingReference node.name t.target := by
  rw [vertices, mapM_eq_error_iff]
  constructor
  · rintro ⟨before, node, after, hSplit, hBefore, hFails⟩
    obtain ⟨t, hNext, hDangles, hError⟩ := vertexOf_eq_error_iff.mp hFails
    exact ⟨node, t, ⟨⟨before, after, hSplit, fun other hOther =>
      exists_vertexOf_iff.mp (hBefore other hOther)⟩, hNext, hDangles⟩, hError⟩
  · rintro ⟨node, t, ⟨⟨before, after, hSplit, hBefore⟩, hNext, hDangles⟩, hError⟩
    exact ⟨before, node, after, hSplit, fun other hOther =>
      exists_vertexOf_iff.mpr (hBefore other hOther),
      vertexOf_eq_error_iff.mpr ⟨t, hNext, hDangles, hError⟩⟩

theorem exists_vertices_iff : (∃ made, vertices nodes = .ok made) ↔
    ∀ node ∈ nodes, ∀ t ∈ node.transitions, ¬Dangles nodes t := by
  rw [vertices, exists_mapM_iff]
  exact forall₂_congr fun node _ => exists_vertexOf_iff

/-- A transition that leads nowhere makes another the first to do so. -/
theorem exists_firstDangling {node : Node} {t : Transition} (hNode : node ∈ nodes)
    (hTransition : t ∈ node.transitions) (hDangles : Dangles nodes t) :
    ∃ node t, FirstDangling nodes node t := by
  cases hMade : vertices nodes with
  | ok made =>
      exact absurd hDangles (exists_vertices_iff.mp ⟨made, hMade⟩ node hNode t hTransition)
  | error e =>
      obtain ⟨first, u, hFirst, -⟩ := vertices_eq_error_iff.mp hMade
      exact ⟨first, u, hFirst⟩

theorem not_dangles_iff {t : Transition} :
    ¬Dangles nodes t ↔ ∃ next, find? nodes t.target = some next := by
  rw [← Option.isSome_iff_exists, find?, List.find?_isSome]
  simp [Dangles]

/-- Links have been checked when every transition leads to a node. -/
theorem checkLinks_eq_ok_iff : checkLinks nodes = .ok () ↔
    ∀ node ∈ nodes, ∀ t ∈ node.transitions, ∃ next, find? nodes t.target = some next := by
  have hMade : checkLinks nodes = .ok () ↔ ∃ made, vertices nodes = .ok made := by
    rw [checkLinks, bind_eq_ok_iff]
    exact exists_congr fun made => and_iff_left rfl
  rw [hMade, exists_vertices_iff]
  exact forall₂_congr fun node _ => forall₂_congr fun t _ => not_dangles_iff

theorem checkLinks_eq_error_iff {e : Error} : checkLinks nodes = .error e ↔
    ∃ node t, FirstDangling nodes node t ∧ e = .danglingReference node.name t.target := by
  rw [checkLinks, bind_eq_error_iff, ← vertices_eq_error_iff]
  exact or_iff_left (by rintro ⟨made, -, hOk⟩; cases hOk)

end Vertices
end Workflow
end WorkflowDag
