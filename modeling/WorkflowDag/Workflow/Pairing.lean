import WorkflowDag.Workflow.Graph

/-!
# Forks and the joins that close them

Every path of a fork is followed along its success transitions: the `ok` of an action, every branch
of a decision, and for a nested fork what follows the join that closes it.  All paths have to meet
one and the same join.
-/

namespace WorkflowDag
namespace Workflow

/-- The joins found to close forks, in the order in which they were found. -/
abbrev Pairs := List (String × String)

/-- The join that closes a fork. -/
def closing? (pairs : Pairs) (fork : String) : Option String :=
  (pairs.find? fun pair => pair.1 == fork).map Prod.snd

/-- Where the node that follows a join stands. -/
def afterJoin? (nodes : List Node) (join : String) : Option String :=
  (targets nodes join).head?

/-- The names that the transitions of a node lead to, failures left out. -/
def successTargets (node : Node) : List String :=
  (node.transitions.filter fun t => t.kind != .error).map Transition.target

/-- Number of transitions in a workflow. -/
def edgeCount (nodes : List Node) : Nat :=
  (nodes.map fun node => node.transitions.length).foldl (· + ·) 0

/-- Pairs one fork, given what is known already. -/
abbrev Pairer := Pairs → Fork → Except Error (Option String × Pairs)

/-- The joins that are met from the pending nodes, the last one added being looked at first.  Every
step takes one pending node, and a node adds others only when it is looked at for the first time. -/
def joinsMet (nodes : List Node) (pairFork : Pairer) :
    Nat → List String → List String → List String → Pairs → Except Error (List String × Pairs)
  | 0, _, _, found, pairs => .ok (found, pairs)
  | _ + 1, [], _, found, pairs => .ok (found, pairs)
  | steps + 1, name :: pending, visited, found, pairs =>
    if visited.contains name then joinsMet nodes pairFork steps pending visited found pairs
    else
      match find? nodes name with
      | none => joinsMet nodes pairFork steps pending (name :: visited) found pairs
      | some (.join _ _) =>
        joinsMet nodes pairFork steps pending (name :: visited) (found ++ [name]) pairs
      | some (.fork f) => do
        let (join, pairs') ← pairFork pairs f
        let next := (join.bind (afterJoin? nodes)).toList
        joinsMet nodes pairFork steps (next ++ pending) (name :: visited) found pairs'
      | some node =>
        joinsMet nodes pairFork steps ((successTargets node).reverse ++ pending)
          (name :: visited) found pairs

/-- The node of that name is a join. -/
def isJoin (nodes : List Node) (name : String) : Bool :=
  match find? nodes name with
  | some (.join _ _) => true
  | _ => false

/-- Follows the paths of a fork in order.  `join` is the join that the paths before have met. -/
def closePaths (nodes : List Node) (pairFork : Pairer) (fork : String) :
    Option String → Pairs → List String → Except Error (Option String × Pairs)
  | join, pairs, [] => .ok (join, pairs)
  | join, pairs, path :: rest =>
    if isJoin nodes path then .error (.malformedNode fork (.pathStartsAtJoin path))
    else do
      let (met, pairs') ← joinsMet nodes pairFork (edgeCount nodes + 1) [path] [] [] pairs
      match met with
      | [] => .error (.malformedNode fork (.pathNeverJoins path))
      | [found] =>
        match join with
        | some other =>
          if found = other then closePaths nodes pairFork fork join pairs' rest
          else .error (.malformedNode fork (.pathsDiffer other found))
        | none => closePaths nodes pairFork fork (some found) pairs' rest
      | _ => .error (.malformedNode fork (.pathReachesSeveral path))

/-- The join that a fork declares is the one its paths meet. -/
def checkDeclared (nodes : List Node) (fork : Fork) (join : Option String) : Except Error Unit :=
  match fork.declaredJoin with
  | none => .ok ()
  | some declared =>
    match find? nodes declared with
    | none => .error (.danglingReference fork.name declared)
    | some node =>
      if node.kind ≠ .join then
        .error (.malformedNode fork.name (.declaredNoJoin declared node.kind))
      else
        match join with
        | some found =>
          if declared = found then .ok ()
          else .error (.malformedNode fork.name (.declaredDiffers declared found))
        | none => .ok ()

/-- Finds the join that closes a fork, and those of the forks nested in it.  `resolving` are the
forks around it; a fork among them gives no join, which only happens off the paths from the start.
Each level adds a fork to `resolving`, so as many levels as there are nodes suffice. -/
def pairFork (nodes : List Node) : Nat → List String → Pairer
  | 0, _, pairs, _ => .ok (none, pairs)
  | levels + 1, resolving, pairs, fork =>
    match closing? pairs fork.name with
    | some join => .ok (some join, pairs)
    | none =>
      if resolving.contains fork.name then .ok (none, pairs)
      else do
        let (join, pairs') ←
          closePaths nodes (pairFork nodes levels (fork.name :: resolving)) fork.name none pairs
            fork.paths
        checkDeclared nodes fork join
        match join with
        | some found => pure (some found, pairs' ++ [(fork.name, found)])
        | none => pure (none, pairs')

/-- Pairs the forks among the listed nodes, in order. -/
def joinsOfForks (nodes : List Node) : Pairs → List Node → Except Error Pairs
  | pairs, [] => .ok pairs
  | pairs, .fork f :: rest => do
    let (_, pairs') ← pairFork nodes (nodes.length + 1) [] pairs f
    joinsOfForks nodes pairs' rest
  | pairs, _ :: rest => joinsOfForks nodes pairs rest

end Workflow
end WorkflowDag
