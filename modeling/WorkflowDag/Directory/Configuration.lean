import WorkflowDag.File.System
import WorkflowDag.Properties
import WorkflowDag.Settings.Reading

/-!
# Configuration of a directory

The settings of a project and the configuration of a workflow directory.  The entries of the
configuration come from the user's name, two property files, the settings and the command line,
where the later ones win.
-/

namespace WorkflowDag
namespace Directory

/-- The directory that holds the settings of a project. -/
def settingsDirectory : String := ".flowgraph"

/-- The property files of a workflow directory, in the order in which they are read. -/
def propertyFiles : List String := ["job.properties", "configuration.properties"]

/-- The name under which the configuration holds the user. -/
def userEntry : String := "user.name"

section

variable {m : Type → Type} [Monad m] [MonadExceptOf Failure m] [FileSystem m]

/-- Reads the text of a settings file. -/
def readSettingsText (path : String) : m String :=
  tryCatch (FileSystem.read path) fun failure =>
    match failure with
    | .file fault => throw (.error (.configuration path [.unreadable fault.message]))
    | other => throw other

/-- Reads the settings of a project; without a file the defaults hold. -/
def loadSettings (directory : String) : m Settings := do
  let path := Location.join [directory, settingsDirectory, "project.json"]
  if ← FileSystem.doesExist path then
    let text ← readSettingsText path
    orFail (Settings.read text path)
  else pure {}

/-- Adds the entries of a property file to a record; a missing file adds none. -/
def loadProperties (scopes : List String) (path : String) (base : Record) : m Record := do
  if ← FileSystem.doesExist path then
    let text ← FileSystem.read path
    let expanded ← orFail (Properties.expand text base path)
    note scopes (.propertiesLoaded (expanded.size - base.size) path)
    pure expanded
  else
    note scopes (.noPropertyFile path)
    pure base

/-- Adds the entries of property files one after the other. -/
def loadPropertyFiles (scopes : List String) (input : String) : List String → Record → m Record
  | [], r => pure r
  | name :: rest, r => do
    let next ← loadProperties scopes (Location.join [input, name]) r
    loadPropertyFiles scopes input rest next

/-- The configuration of a workflow directory. -/
def gatherConfiguration (scopes : List String) (input user : String) (properties params : Record) :
    m Record := do
  let loaded ← loadPropertyFiles scopes input propertyFiles (Record.empty.insert userEntry user)
  pure ((loaded.merge properties).merge params)

end
end Directory
end WorkflowDag
