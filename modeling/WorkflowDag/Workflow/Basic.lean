import WorkflowDag.Journal.Event
import WorkflowDag.Markup.Reading
import WorkflowDag.Workflow.NodeReading
import WorkflowDag.Workflow.Pairing

/-!
# Workflows

A workflow document holds a name, defaults of its parameters and its nodes.  Reading one checks that
every transition leads to a node, that no cycle can be reached from the start, and that a join
closes every fork.
-/

namespace WorkflowDag

/-- A workflow whose links have been checked. -/
structure Workflow where
  name : String
  /-- The nodes in document order; names are distinct. -/
  nodes : List Node
  /-- The join that closes each fork, in the order in which they were found. -/
  closingJoins : Workflow.Pairs
  defaults : Record
deriving DecidableEq, Repr

namespace Workflow

/-- What the sections of a document have given so far. -/
structure Sections where
  nodes : List Node := []
  defaults : Record := .empty
deriving Repr

/-- Reads the defaults of parameters; an entry needs a name and a value. -/
def readDefaults (e : Element) : Record :=
  (e.childrenWithTag "property").foldl
    (fun acc property =>
      let name := ((property.child? "name").map Element.text).getD ""
      match property.child? "value" with
      | some value => if name = "" then acc else acc.assign name value.text
      | none => acc) .empty

/-- The section says nothing about the flow of control. -/
def isIgnored (e : Element) : Bool :=
  e.tag == "global" || e.tag == "credentials"

/-- Adds a section of the document.  The last parameter section counts. -/
def Sections.add (s : Sections) (e : Element) : Except Error Sections :=
  if e.tag = "parameters" then .ok { s with defaults := readDefaults e }
  else if isIgnored e then .ok s
  else do
    let node ← Node.ofElement e
    if (find? s.nodes node.name).isSome then .error (.duplicateNode node.name)
    else pure { s with nodes := s.nodes ++ [node] }

/-- What is told about a section once it has been added. -/
def sectionEvents (e : Element) : List Event :=
  if e.tag = "parameters" then []
  else if isIgnored e then [.sectionIgnored e.tag]
  else
    match Node.ofElement e with
    | .ok node => [.nodeRead node]
    | .error _ => []

/-- Reads the sections of a document in order. -/
def readSections : Sections → List Element → Traced Sections
  | s, [] => pure s
  | s, e :: rest => do
    let s' ← Traced.ofExcept (s.add e)
    (sectionEvents e).forM Traced.tell
    readSections s' rest

/-- The name of a workflow. -/
def readName (root : Element) : Except Error String :=
  match (root.attributes.get? "name").map Text.trim with
  | some name => if name = "" then .error (.malformedNode root.tag .namelessWorkflow) else .ok name
  | none => .error (.malformedNode root.tag .namelessWorkflow)

/-- Checks how the nodes hang together and pairs the forks. -/
def link (nodes : List Node) : Except Error Pairs := do
  if (find? nodes Node.startName).isNone then
    .error (.malformedNode Node.startName .noStart)
  else
    checkLinks nodes
    checkAcyclic nodes Node.startName
    joinsOfForks nodes [] nodes

/-- Makes a workflow of the root element of a document. -/
def ofElement (root : Element) : Traced Workflow := do
  let name ← Traced.ofExcept (readName root)
  let sections ← readSections {} root.children
  let closingJoins ← Traced.ofExcept (link sections.nodes)
  Traced.tell (.workflowRead name sections.nodes.length)
  pure ⟨name, sections.nodes, closingJoins, sections.defaults⟩

/-- Reads the root element of a document. -/
def readDocument (source : String) : Except Error Element :=
  match Markup.read? source with
  | some root => .ok root
  | none => .error .malformedDocument

/-- Reads a workflow document. -/
def read (source : String) : Traced Workflow := do
  let root ← Traced.ofExcept (readDocument source)
  ofElement root

end Workflow
end WorkflowDag
