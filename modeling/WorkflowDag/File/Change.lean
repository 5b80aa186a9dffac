import WorkflowDag.File.Tree

/-!
# Changes of a file tree

What differs between two file trees below a place.  A directory is named with a slash at its end.
-/

namespace WorkflowDag

/-- What happened to an entry, with what it holds now. -/
inductive Change where
  | added (node : FileNode)
  | modified (node : FileNode)
  | removed
deriving DecidableEq, Repr

namespace FileTree

/-- The path of an entry below a place. -/
def pathBelow (place : List String) (entry : List String × FileNode) : String :=
  let names := Text.joinWith "/" (entry.1.drop place.length)
  match entry.2 with
  | .directory => names ++ "/"
  | .file _ => names

/-- The entries below a place, by path. -/
def entriesBelow (t : FileTree) (place : List String) : List (String × FileNode) :=
  (t.entries.filter fun entry => place.isPrefixOf entry.1 && entry.1.length > place.length).map
    fun entry => (pathBelow place entry, entry.2)

/-- The change of a path, if there is one. -/
def changeOf? (before after : List (String × FileNode)) (path : String) : Option Change :=
  let old := (before.find? fun entry => entry.1 == path).map Prod.snd
  let new := (after.find? fun entry => entry.1 == path).map Prod.snd
  match old, new with
  | none, some node => some (.added node)
  | some _, none => some .removed
  | some node, some other => if node = other then none else some (.modified other)
  | none, none => none

/-- The changes between two trees below a place, in ascending order of their paths. -/
def changes (before after : FileTree) (place : List String) : List (String × Change) :=
  let old := before.entriesBelow place
  let new := after.entriesBelow place
  (Text.sorted (old.map Prod.fst ++ new.map Prod.fst).eraseDups).filterMap fun path =>
    (changeOf? old new path).map fun change => (path, change)

end FileTree
end WorkflowDag
