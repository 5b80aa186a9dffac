import WorkflowDag.Proofs.DocumentOrder

/-!
# References between the nodes of a workflow

Nodes name the nodes that they lead to.  Linking looks every name up, and either all transitions
become edges or the first one that leads nowhere is reported.

* `Mirrors` ties an edge to its transition.  The vertices of nodes mirror them
  (`mirrored_of_vertices`), and where no cycle can be reached among the nodes none can among the
  vertices (`not_cycle_of_vertices`).
* A failure names the transition that dangles first (`read_of_firstDangling`).

Main statement: `references_intact`.
-/

namespace WorkflowDag
namespace Workflow

/-- The edge is that of the transition, and it leads to the vertex of the name that the transition
gives. -/
structure Mirrors (vertices : List Vertex) (t : Transition) (edge : Edge) : Prop where
  kind : edge.kind = t.kind
  guard : edge.guard = t.guard
  target : ∃ vertex, vertices[edge.target]? = some vertex ∧ vertex.node.name = t.target

/-- An edge leads from one place among the vertices to the other. -/
def Joins (vertices : List Vertex) (place other : Nat) : Prop :=
  ∃ vertex edge, vertices[place]? = some vertex ∧ edge ∈ vertex.next ∧ edge.target = other

section Vertices

variable {nodes : List Node}

/-- The vertices are those of the nodes, and their edges mirror the transitions one by one. -/
theorem mirrored_of_vertices {made : List Vertex} (hMade : vertices nodes = .ok made) :
    made.map Vertex.node = nodes ∧
      ∀ vertex ∈ made, List.Forall₂ (Mirrors made) vertex.node.transitions vertex.next := by
  have hNodes : made.map Vertex.node = nodes := by
    have hEach : List.Forall₂ (fun node vertex => id node = Vertex.node vertex) nodes made :=
      (mapM_eq_ok_iff.mp hMade).imp fun _ _ hVertex => (vertexOf_eq_ok_iff.mp hVertex).1.symm
    rw [← map_eq_map_of_forall₂ hEach, List.map_id]
  refine ⟨hNodes, fun vertex hMem => ?_⟩
  obtain ⟨node, -, hVertex⟩ := exists_mem_left_of_forall₂ (mapM_eq_ok_iff.mp hMade) hMem
  obtain ⟨rfl, hNext⟩ := vertexOf_eq_ok_iff.mp hVertex
  refine hNext.imp fun t edge hEdge => ?_
  obtain ⟨hKind, hGuard, hPlace⟩ := edgeOf_eq_ok_iff.mp hEdge
  obtain ⟨hBound, hName, -⟩ := List.findIdx?_eq_some_iff_getElem.mp hPlace
  -- The vertices are the nodes in their order, so the place found among the nodes is one among
  -- them.
  have hAt : (made.map Vertex.node)[edge.target]? = some nodes[edge.target] := by
    rw [hNodes, List.getElem?_eq_getElem hBound]
  rw [List.getElem?_map, Option.map_eq_some_iff] at hAt
  obtain ⟨other, hOther, hSame⟩ := hAt
  exact ⟨hKind, hGuard, other, hOther, hSame ▸ eq_of_beq hName⟩

/-- The name of the vertex at a place. -/
def nameAt (made : List Vertex) (place : Nat) : String :=
  ((made[place]?).map fun vertex => vertex.node.name).getD ""

theorem nameAt_of_getElem? {made : List Vertex} {place : Nat} {vertex : Vertex}
    (hVertex : made[place]? = some vertex) : nameAt made place = vertex.node.name := by
  rw [nameAt, hVertex]
  rfl

/-- Edges between vertices are transitions between their nodes. -/
theorem leads_of_joins {made : List Vertex} (hMade : vertices nodes = .ok made)
    (hDistinct : (nodes.map Node.name).Nodup) {place other : Nat}
    (hJoins : Joins made place other) :
    Leads nodes (nameAt made place) (nameAt made other) := by
  obtain ⟨hNodes, hMirrors⟩ := mirrored_of_vertices hMade
  obtain ⟨vertex, edge, hVertex, hEdge, rfl⟩ := hJoins
  have hMem : vertex ∈ made := List.mem_of_getElem? hVertex
  obtain ⟨t, hTransition, hMirror⟩ := exists_mem_left_of_forall₂ (hMirrors vertex hMem) hEdge
  obtain ⟨target, hTarget, hName⟩ := hMirror.target
  rw [nameAt_of_getElem? hVertex, nameAt_of_getElem? hTarget, hName]
  have hNode : vertex.node ∈ nodes := hNodes ▸ List.mem_map_of_mem hMem
  exact (leads_iff (find?_name hDistinct hNode)).mpr ⟨t, hTransition, rfl⟩

/-- Where no cycle can be reached among the nodes, none can among their vertices. -/
theorem not_cycle_of_vertices {made : List Vertex} (hMade : vertices nodes = .ok made)
    (hDistinct : (nodes.map Node.name).Nodup)
    (hAcyclic : ∀ name, Reachable nodes name → ¬Relation.TransGen (Leads nodes) name name)
    {start place : Nat} {vertex : Vertex} (hStart : made[start]? = some vertex)
    (hName : vertex.node.name = Node.startName)
    (hReached : Relation.ReflTransGen (Joins made) start place) :
    ¬Relation.TransGen (Joins made) place place := by
  -- Names take edges to transitions, and so a cycle of vertices to one of nodes.
  have hLeads : Joins made ≤ Function.onFun (Leads nodes) (nameAt made) :=
    fun _ _ => leads_of_joins hMade hDistinct
  have hReachable : Reachable nodes (nameAt made place) := by
    have hPath : Relation.ReflTransGen (Leads nodes) (nameAt made start) (nameAt made place) :=
      Relation.ReflTransGen.lift (nameAt made) hLeads _ _ hReached
    rwa [nameAt_of_getElem? hStart, hName] at hPath
  exact fun hCycle =>
    hAcyclic _ hReachable (Relation.TransGen.lift (nameAt made) hLeads _ _ hCycle)

end Vertices

section Guards

/-- Only the cases of a decision have guards. -/
theorem guard_isSome_iff {node : Node} {t : Transition} (hTransition : t ∈ node.transitions) :
    t.guard.isSome = true ↔ t.kind = .case := by
  cases node with
  | decision d =>
      rcases List.mem_append.mp hTransition with hCase | hLast
      · obtain ⟨c, -, rfl⟩ := List.mem_map.mp hCase
        simp
      · rw [List.mem_singleton.mp hLast]
        simp
  | fork f =>
      obtain ⟨path, -, rfl⟩ := List.mem_map.mp hTransition
      simp
  | start target | join name target =>
      rw [List.mem_singleton.mp hTransition]
      simp
  | action a =>
      rcases List.mem_cons.mp hTransition with rfl | hLast
      · simp
      · rw [List.mem_singleton.mp hLast]
        simp
  | kill name message | finish name => exact absurd hTransition List.not_mem_nil

variable {made : List Vertex}

/-- The guards of the edges out of a decision are those of its cases. -/
theorem guards_of_mirrors {d : Decision} {next : List Edge}
    (hMirrors : List.Forall₂ (Mirrors made) (Node.decision d).transitions next) :
    next.filterMap Edge.guard = d.cases.map GuardedCase.guard := by
  have hGuards : (Node.decision d).transitions.map Transition.guard = next.map Edge.guard :=
    map_eq_map_of_forall₂ (hMirrors.imp fun _ _ hMirror => hMirror.guard.symm)
  calc next.filterMap Edge.guard
      = (next.map Edge.guard).filterMap id := by rw [List.filterMap_map]; rfl
    _ = ((Node.decision d).transitions.map Transition.guard).filterMap id := by rw [hGuards]
    _ = d.cases.map GuardedCase.guard := by
        simp [Node.transitions, List.filterMap_append, List.filterMap_map]

end Guards

/-- What holds of the vertices of a document that has been read.  They stand in the order of their
elements, and guards are the texts of the cases. -/
structure Intact (root : Element) (nodes : List Node) (made : List Vertex) : Prop where
  linked : vertices nodes = .ok made
  distinct : (nodes.map Node.name).Nodup
  names : made.map (fun vertex => vertex.node.name) = nodes.map Node.name
  order : List.Forall₂ (fun e vertex => Node.ofElement e = .ok vertex.node)
    (root.children.filter holdsNode) made
  mirrors : ∀ vertex ∈ made,
    List.Forall₂ (Mirrors made) vertex.node.transitions vertex.next
  guarded : ∀ vertex ∈ made, ∀ edge ∈ vertex.next, edge.guard.isSome = true ↔ edge.kind = .case
  guards : ∀ vertex ∈ made, ∀ d, vertex.node = .decision d → ∃ e ∈ root.children, ∃ switch,
    Node.ofElement e = .ok vertex.node ∧ e.child? "switch" = some switch ∧
    vertex.next.filterMap Edge.guard = (switch.childrenWithTag "case").map Element.text
  cases : ∀ d, Node.decision d ∈ nodes → d.cases ≠ []
  paths : ∀ f, Node.fork f ∈ nodes → 2 ≤ f.paths.length ∧ f.paths.Nodup
  acyclic : ∃ start vertex, made[start]? = some vertex ∧ vertex.node.name = Node.startName ∧
    ∀ place, Relation.ReflTransGen (Joins made) start place →
      ¬Relation.TransGen (Joins made) place place

section Documents

variable {source : String} {nodes : List Node}

theorem texts_of_declares {e : Element} {d : Decision} (hDeclares : Node.Declares e (.decision d)) :
    d.cases ≠ [] ∧ ∃ switch, e.child? "switch" = some switch ∧
      d.cases.map GuardedCase.guard = (switch.childrenWithTag "case").map Element.text := by
  cases hDeclares with
  | decision _ _ hSwitch hCases hSome =>
      refine ⟨hSome, _, hSwitch, ?_⟩
      exact (map_eq_map_of_forall₂ (hCases.imp fun _ _ hCase => hCase.1)).symm

/-- A document that is read has intact references. -/
theorem exists_intact_of_read {w : Workflow} (hRead : (read source).result = .ok w) :
    ∃ root made, readDocument source = .ok root ∧ Intact root w.nodes made := by
  obtain ⟨hNamed, -, hLink⟩ := linked_of_read hRead
  obtain ⟨⟨first, hStart⟩, hLinks, hAcyclic, -⟩ := link_eq_ok_iff.mp hLink
  obtain ⟨root, -, hRoot, -, hElements⟩ := holds_of_read hRead
  obtain ⟨made, hMade, -⟩ := bind_eq_ok_iff.mp hLinks
  obtain ⟨hNodes, hMirrors⟩ := mirrored_of_vertices hMade
  have hOrder : List.Forall₂ (fun e vertex => Node.ofElement e = .ok (Vertex.node vertex))
      (root.children.filter holdsNode) made := by
    have hEach := mapM_eq_ok_iff.mp hElements
    rwa [← hNodes, List.forall₂_map_right_iff] at hEach
  have hDeclared : ∀ node ∈ w.nodes, ∃ e ∈ root.children, Node.ofElement e = .ok node := by
    intro node hNode
    obtain ⟨e, hMem, hElement⟩ := exists_mem_left_of_forall₂ (mapM_eq_ok_iff.mp hElements) hNode
    exact ⟨e, (List.mem_filter.mp hMem).1, hElement⟩
  refine ⟨root, made, hRoot, hMade, hNamed.distinct, ?_, hOrder, hMirrors, ?_, ?_, ?_, ?_, ?_⟩
  · rw [← hNodes, List.map_map]
    rfl
  · intro vertex hVertex edge hEdge
    obtain ⟨t, hTransition, hMirror⟩ := exists_mem_left_of_forall₂ (hMirrors vertex hVertex) hEdge
    rw [hMirror.guard, hMirror.kind]
    exact guard_isSome_iff hTransition
  · intro vertex hVertex d hDecision
    obtain ⟨e, hMem, hElement⟩ := hDeclared _ (hNodes ▸ List.mem_map_of_mem hVertex)
    have hDeclares := Node.declares_of_ofElement hElement
    have hOwn := hMirrors vertex hVertex
    rw [hDecision] at hDeclares hOwn
    obtain ⟨-, switch, hSwitch, hTexts⟩ := texts_of_declares hDeclares
    exact ⟨e, hMem, switch, hElement, hSwitch, (guards_of_mirrors hOwn).trans hTexts⟩
  · intro d hDecision
    obtain ⟨e, -, hElement⟩ := hDeclared _ hDecision
    exact (texts_of_declares (Node.declares_of_ofElement hElement)).1
  · intro f hFork
    obtain ⟨e, -, hElement⟩ := hDeclared _ hFork
    cases Node.declares_of_ofElement hElement with
    | fork _ _ _ hSeveral hDistinct => exact ⟨hSeveral, hDistinct⟩
  · obtain ⟨vertex, hVertex, hFirst⟩ := List.mem_map.mp (hNodes.symm ▸ mem_of_find? hStart)
    obtain ⟨start, hPlace⟩ := List.getElem?_of_mem hVertex
    have hName : vertex.node.name = Node.startName := by
      rw [hFirst]
      exact name_of_find? hStart
    exact ⟨start, vertex, hPlace, hName, fun place => not_cycle_of_vertices hMade hNamed.distinct
      (fun _ => not_cycle_of_checkAcyclic hAcyclic) hPlace hName⟩

/-- The first reference that dangles is the error of a document whose nodes can be read. -/
theorem read_of_firstDangling (hHolds : Holds source nodes)
    (hDistinct : (nodes.map Node.name).Nodup) (hStart : ∃ node ∈ nodes, node.name = Node.startName)
    {node : Node} {t : Transition} (hFirst : FirstDangling nodes node t) :
    (read source).result = .error (.danglingReference node.name t.target) := by
  obtain ⟨name, defaults, hResult⟩ := exists_result_read_eq hHolds hDistinct
  obtain ⟨start, hMem, hName⟩ := hStart
  have hFind : find? nodes Node.startName = some start := hName ▸ find?_name hDistinct hMem
  -- Links are checked as soon as the start has been found, before cycles and forks.
  have hLinks : checkLinks nodes = .error (.danglingReference node.name t.target) :=
    checkLinks_eq_error_iff.mpr ⟨node, t, hFirst, rfl⟩
  rw [hResult, link, hFind, hLinks]
  rfl

end Documents

/-- References are kept.  In a document that is read, nodes have names of their own; the vertices
have these names in the order of the document, and their edges mirror the transitions one by one,
each to the vertex of the name that the transition gives, with a guard exactly on a case, which is
the text of the case; decisions have cases, forks have different paths, at least two; and no cycle
can be reached from the start.  Where the nodes can be read under names of their own, one of them
the start, and some transition leads nowhere, the error names the first such transition of the first
node that has one. -/
theorem references_intact (source : String) :
    (∀ w, (read source).result = .ok w →
      ∃ root made, readDocument source = .ok root ∧ Intact root w.nodes made) ∧
    ∀ nodes, Holds source nodes → (nodes.map Node.name).Nodup →
      (∃ node ∈ nodes, node.name = Node.startName) →
      (∃ node ∈ nodes, ∃ t ∈ node.transitions, Dangles nodes t) →
      ∃ node t, FirstDangling nodes node t ∧
        (read source).result = .error (.danglingReference node.name t.target) := by
  refine ⟨fun w => exists_intact_of_read, ?_⟩
  rintro nodes hHolds hDistinct hStart ⟨node, hNode, t, hTransition, hDangles⟩
  obtain ⟨first, u, hFirst⟩ := exists_firstDangling hNode hTransition hDangles
  exact ⟨first, u, hFirst, read_of_firstDangling hHolds hDistinct hStart hFirst⟩

namespace UnreachedLoop

/-- The units of a document with a cycle that the start does not reach. -/
def units : List Char :=
  ["<w name='w'>",
    "<start to='f'/>",
    "<fork name='f'><path start='c'/><path start='d'/></fork>",
    "<decision name='c'><switch><case to='j'>a</case><default to='j'/></switch></decision>",
    "<decision name='d'><switch><case to='j'>b</case><default to='j'/></switch></decision>",
    "<join name='j' to='e'/>",
    "<join name='l' to='l'/>",
    "<end name='e'/>",
    "</w>"].flatMap String.toList

def workflow : Workflow :=
  ⟨"w", [.start "f", .fork ⟨"f", ["c", "d"], none⟩, .decision ⟨"c", [⟨"a", "j"⟩], "j"⟩,
    .decision ⟨"d", [⟨"b", "j"⟩], "j"⟩, .join "j" "e", .join "l" "l", .finish "e"],
    [("f", "j")], .empty⟩

theorem readUnits?_units :
    ((Markup.readUnits? units).map fun root => (ofElement root).result) = some (.ok workflow) := by
  decide +kernel

end UnreachedLoop

namespace LooseEnds

/-- The units of a document whose decision leads nowhere twice, before a join that does too. -/
def units : List Char :=
  ["<w name='w'>",
    "<kill name='k'/>",
    "<start to='d'/>",
    "<decision name='d'><switch><case to='k'>a</case><case to='x'>b</case>",
    "<default to='y'/></switch></decision>",
    "<join name='j' to='z'/>",
    "</w>"].flatMap String.toList

def nodes : List Node :=
  [.kill "k" "", .start "d", .decision ⟨"d", [⟨"a", "k"⟩, ⟨"b", "x"⟩], "y"⟩, .join "j" "z"]

theorem readUnits?_units : ((Markup.readUnits? units).map fun root =>
    (readName root, (root.children.filter holdsNode).mapM Node.ofElement)) =
    some (.ok "w", .ok nodes) := by
  decide +kernel

theorem dangles_last : Dangles nodes ⟨.next, "z", none⟩ := by
  unfold Dangles
  decide

end LooseEnds

theorem references_intact_loops :
    (∃ root made, readDocument (String.ofList UnreachedLoop.units) = .ok root ∧
      Intact root UnreachedLoop.workflow.nodes made) ∧
    ∃ node t, FirstDangling LooseEnds.nodes node t ∧
      (read (String.ofList LooseEnds.units)).result =
        .error (.danglingReference node.name t.target) := by
  refine ⟨(references_intact _).1 _ (read_ofList UnreachedLoop.readUnits?_units), ?_⟩
  have hHolds : Holds (String.ofList LooseEnds.units) LooseEnds.nodes :=
    holds_ofList LooseEnds.readUnits?_units
  exact (references_intact _).2 _ hHolds (by decide) (by decide)
    ⟨.join "j" "z", by decide, _, List.mem_singleton_self _, LooseEnds.dangles_last⟩

end Workflow
end WorkflowDag
