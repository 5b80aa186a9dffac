import WorkflowDag.Location
import WorkflowDag.Task.Basic

/-!
# Assets

The local files that the actions of a task graph refer to: their files and archives, and the scripts
and jars in their payloads.
-/

namespace WorkflowDag
namespace Asset

/-- The reference without the alias behind `#`. -/
def withoutAlias (reference : String) : String :=
  String.ofList (reference.toList.takeWhile fun c => c != '#')

/-- The payload element names a file. -/
def isFileElement (e : Element) : Bool :=
  e.tag == "script" || e.tag == "jar"

/-- The texts of a task that may name local files. -/
def candidates (t : Task) : List String :=
  match t.body with
  | .kill _ => []
  | .action _ p => p.files ++ p.archives ++ (p.payload.filter isFileElement).map Element.text

/-- The path that a text names. -/
def pathOf (candidate : String) : String :=
  Location.normalize (withoutAlias (Text.trim candidate))

/-- The path is local: relative, without scheme or placeholder, and not above its directory. -/
def isLocal (path : String) : Bool :=
  path != "" && !Text.contains "://".toList path.toList &&
    !Text.contains ['$', '\x7b'] path.toList && !Text.contains ['\x7b', '\x7b'] path.toList &&
    !Location.isAbsolute path && !Text.startsWith ['.', '.'] path.toList

end Asset

/-- The local paths that the actions of a graph refer to, sorted and without repetition. -/
def TaskGraph.assets (g : TaskGraph) : List String :=
  Text.sorted (((g.tasks.flatMap Asset.candidates).map Asset.pathOf).filter Asset.isLocal).eraseDups

end WorkflowDag
