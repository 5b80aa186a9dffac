import WorkflowDag.Asset.Copying
import WorkflowDag.Dag.Summary
import WorkflowDag.Directory.Configuration
import WorkflowDag.Conversion

/-!
# Converting a directory

Converts the workflow of a directory into a DAG module and copies the files that its actions refer
to.  The module is written under a temporary name first and then moved into place, so a failure
leaves the module that was there before.
-/

namespace WorkflowDag
namespace Directory

/-- What is to be converted, and how. -/
structure Request where
  input : String
  output : String
  settings : Settings := {}
  /-- Entries that go over all others. -/
  params : Record := .empty
  /-- The user of the system, if known. -/
  systemUser : Option String := none
  /-- The path from which relative paths are seen. -/
  workingDirectory : String
  /-- Tells this run from others. -/
  runId : String
deriving Repr

/-- What has been converted. -/
structure Report where
  runId : String
  dagName : String
  dagPath : String
  /-- The paths that assets were copied to. -/
  assets : List String
  graph : TaskGraph
deriving Repr

namespace Request

/-- The path of the workflow document. -/
def workflowPath (r : Request) : String :=
  Location.join [r.input, "workflow.xml"]

/-- The name of the DAG: as set, or else that of the input directory. -/
def dagName (r : Request) : String :=
  r.settings.dagName.getD (Location.nameFrom r.workingDirectory r.input)

/-- The path of the DAG module. -/
def dagPath (r : Request) : String :=
  Location.join [r.output, r.dagName ++ ".py"]

/-- The path under which the DAG module is written first. -/
def temporaryPath (r : Request) : String :=
  r.dagPath ++ "." ++ r.runId ++ ".tmp"

/-- The name of the user. -/
def user (r : Request) : String :=
  (r.settings.user <|> r.systemUser).getD "airflow"

/-- The options of the conversion. -/
def options (r : Request) (configuration : Record) : ConversionOptions :=
  { transform :=
      { configuration
        unresolved := r.settings.unresolved
        strictDecisions := r.settings.strictDecisions }
    dag :=
      { dagName := r.dagName
        startDaysAgo := r.settings.startDaysAgo
        scheduleIntervalDays := r.settings.scheduleIntervalDays
        target := r.settings.target } }

end Request

section

variable {m : Type → Type} [Monad m] [MonadExceptOf Failure m] [FileSystem m]

/-- Moves a file into place; when that fails the file is removed. -/
def moveIntoPlace (temporary path : String) : m Unit :=
  tryCatch (FileSystem.rename temporary path) fun failure => do
    FileSystem.remove temporary
    throw failure

/-- Writes a file in one step. -/
def writeAtOnce (temporary path text : String) : m Unit := do
  FileSystem.write temporary text
  moveIntoPlace temporary path

/-- Reads the workflow of a directory and converts it; nothing is written. -/
def convertInput (r : Request) : m Conversion := do
  if ← FileSystem.doesExist r.workflowPath then
    let configuration ← gatherConfiguration [r.runId] r.input r.user r.settings.properties r.params
    let source ← FileSystem.read r.workflowPath
    perform ((convert source (r.options configuration)).within r.runId)
  else throw (.error (.configuration r.workflowPath [.noWorkflowFile]))

/-- Converts a directory. -/
def convertDirectory (r : Request) : m Report := do
  let conversion ← convertInput r
  FileSystem.makeDirectories r.output
  writeAtOnce r.temporaryPath r.dagPath conversion.text
  note [r.runId] (.dagSaved r.dagPath)
  let assets ← Asset.copyAll
    { input := r.input, output := r.output, exclude := r.settings.exclude,
      scopes := [r.runId, "assets"] } conversion.graph.assets
  pure ⟨r.runId, r.dagName, r.dagPath, assets, conversion.graph⟩

end
end Directory
end WorkflowDag
