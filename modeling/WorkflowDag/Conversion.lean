import WorkflowDag.Dag.Module
import WorkflowDag.Task.Walk

/-!
# Conversion

A workflow document is read, turned into tasks and written as a DAG module.
-/

namespace WorkflowDag

/-- What a conversion is told besides the document. -/
structure ConversionOptions where
  transform : TaskOptions := {}
  dag : ModuleOptions := {}
deriving Repr

/-- A converted document. -/
structure Conversion where
  workflow : Workflow
  graph : TaskGraph
  text : String
deriving Repr

/-- Converts a workflow document. -/
def convert (source : String) (options : ConversionOptions) : Traced Conversion := do
  let workflow ← (Workflow.read source).within "parse"
  let graph ← (TaskGraph.ofWorkflow workflow options.transform).within "transform"
  let text ← (graph.emit options.dag).within "emit"
  pure ⟨workflow, graph, text⟩

end WorkflowDag
