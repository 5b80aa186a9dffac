import WorkflowDag.Asset.Reference
import WorkflowDag.File.System
import WorkflowDag.Glob.Basic

/-!
# Copying assets

Copies the local files that a DAG refers to from the input directory to the output directory.
-/

namespace WorkflowDag
namespace Asset

/-- Where assets are copied from and to, and which are left out. -/
structure CopyRequest where
  input : String
  output : String
  exclude : List String := []
  /-- The scopes in which events are noted. -/
  scopes : List String := []

/-- The asset is one of those left out. -/
def isExcluded (exclude : List String) (reference : String) : Bool :=
  exclude.any fun glob => Glob.describes glob reference

section

variable {m : Type → Type} [Monad m] [MonadExceptOf Failure m] [FileSystem m]

/-- Copies one asset; the result is the path it was copied to. -/
def copyOne (request : CopyRequest) (reference : String) : m (Option String) := do
  if isExcluded request.exclude reference then
    note request.scopes (.assetExcluded reference)
    pure none
  else
    let origin := Location.join [request.input, reference]
    if ← FileSystem.isFile origin then
      let target := Location.join [request.output, reference]
      FileSystem.makeDirectories (Location.parent target)
      FileSystem.copy origin target
      note request.scopes (.assetCopied reference)
      pure (some target)
    else
      note request.scopes (.assetMissing reference)
      pure none

/-- Copies assets in order; the result are the paths they were copied to. -/
def copyAll (request : CopyRequest) : List String → m (List String)
  | [] => pure []
  | reference :: rest => do
    let target ← copyOne request reference
    let targets ← copyAll request rest
    pure (target.toList ++ targets)

end
end Asset
end WorkflowDag
