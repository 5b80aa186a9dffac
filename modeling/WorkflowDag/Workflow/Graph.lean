import WorkflowDag.Workflow.Vertex

/-!
# The graph of a workflow

Nodes refer to each other by name.  `checkLinks` follows every transition to a vertex,
`checkAcyclic` finds the first cycle that a search from a node runs into.
-/

namespace WorkflowDag
namespace Workflow

/-- The node of a name. -/
def find? (nodes : List Node) (name : String) : Option Node :=
  nodes.find? fun node => node.name == name

/-- The names that the transitions of a named node lead to. -/
def targets (nodes : List Node) (name : String) : List String :=
  match find? nodes name with
  | some node => node.transitions.map Transition.target
  | none => []

/-- Every transition leads to a node, so that the nodes have vertices. -/
def checkLinks (nodes : List Node) : Except Error Unit := do
  let _ ← vertices nodes
  pure ()

/-- Visits a node in depth-first order and returns the nodes finished so far.  `path` leads from the
start to the node.  As `path` holds no name twice, more steps than there are nodes are never
needed. -/
def visit (nodes : List Node) : Nat → List String → List String → String →
    Except Error (List String)
  | 0, path, _, name => .error (.cycle name path)
  | steps + 1, path, done, name =>
    if path.contains name then .error (.cycle name path)
    else if done.contains name then .ok done
    else do
      let done' ← (targets nodes name).foldlM (fun acc target =>
        visit nodes steps (path ++ [name]) acc target) done
      pure (name :: done')

/-- No cycle can be reached from the node of the given name. -/
def checkAcyclic (nodes : List Node) (start : String) : Except Error Unit := do
  let _ ← visit nodes (nodes.length + 1) [] [] start
  pure ()

end Workflow
end WorkflowDag
