import WorkflowDag.Workflow.Node

/-!
# Vertices

A vertex is a node with the edges out of it.  Nodes name the nodes that they lead to; an edge holds
the place of the vertex itself.  The first transition that leads nowhere is an error.
-/

namespace WorkflowDag
namespace Workflow

/-- A transition that has been followed to a vertex. -/
structure Edge where
  kind : TransitionKind
  /-- The place of the vertex among all vertices. -/
  target : Nat
  guard : Option String
deriving DecidableEq, Repr

/-- A node and the edges out of it, in the order of its transitions. -/
structure Vertex where
  node : Node
  next : List Edge
deriving DecidableEq, Repr

/-- The edge of a transition of a node. -/
def edgeOf (nodes : List Node) (node : Node) (t : Transition) : Except Error Edge :=
  match nodes.findIdx? fun other => other.name == t.target with
  | some place => .ok ⟨t.kind, place, t.guard⟩
  | none => .error (.danglingReference node.name t.target)

/-- The vertex of a node. -/
def vertexOf (nodes : List Node) (node : Node) : Except Error Vertex := do
  let next ← node.transitions.mapM (edgeOf nodes node)
  pure ⟨node, next⟩

/-- The vertices of all nodes, in their order. -/
def vertices (nodes : List Node) : Except Error (List Vertex) :=
  nodes.mapM (vertexOf nodes)

end Workflow
end WorkflowDag
