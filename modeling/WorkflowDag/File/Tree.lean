import WorkflowDag.File.Fault
import WorkflowDag.Location

/-!
# File trees

A tree of files and directories as a value.  A place in it is the list of names that lead there from
the root.  Paths are followed name by name from a working directory: every name but the last has to
be a directory, and `..` goes back to the one before.
-/

namespace WorkflowDag

/-- What stands at a place of a file tree. -/
inductive FileNode where
  | directory
  | file (text : String)
deriving DecidableEq, Repr

/-- A tree of files.  The root, which has no entry, is a directory. -/
structure FileTree where
  entries : List (List String × FileNode)
deriving DecidableEq, Repr

namespace FileTree

/-- The tree that holds nothing. -/
def empty : FileTree := ⟨[]⟩

/-- What stands at a place. -/
def get? (t : FileTree) (place : List String) : Option FileNode :=
  if place.isEmpty then some .directory
  else (t.entries.find? fun entry => entry.1 == place).map Prod.snd

/-- Takes away what stands at a place. -/
def erase (t : FileTree) (place : List String) : FileTree :=
  ⟨t.entries.filter fun entry => entry.1 != place⟩

/-- Takes away what stands at a place and below it. -/
def eraseBelow (t : FileTree) (place : List String) : FileTree :=
  ⟨t.entries.filter fun entry => !place.isPrefixOf entry.1⟩

/-- Puts something at a place. -/
def put (t : FileTree) (place : List String) (node : FileNode) : FileTree :=
  ⟨(place, node) :: (t.erase place).entries⟩

/-- Text as a file keeps it: a half that stands alone is not kept. -/
def kept (s : String) : String :=
  Text.split (Text.join s)

/-- The names in a path. -/
def namesOf (path : String) : List String :=
  (Location.parts path).map kept

/-- Where following a path ends. -/
inductive Lookup where
  | found (place : List String) (node : FileNode)
  /-- Only the last name is missing. -/
  | vacant (place : List String)
  | failed (fault : FileFaultKind)
deriving Repr

/-- Follows names from a directory. -/
def follow (t : FileTree) : List String → List String → Lookup
  | here, [] => .found here .directory
  | here, name :: rest =>
    if name = "" ∨ name = "." then t.follow here rest
    else if name = ".." then t.follow here.dropLast rest
    else
      match t.get? (here ++ [name]) with
      | some .directory => t.follow (here ++ [name]) rest
      | some (.file text) =>
        if rest.isEmpty then .found (here ++ [name]) (.file text) else .failed .notDirectory
      | none =>
        if rest.all fun other => other = "" then .vacant (here ++ [name]) else .failed .missing

/-- The place at which a path begins. -/
def startOf (directory : List String) (path : String) : List String :=
  if Location.isAbsolute path then [] else directory

/-- Follows a path from a working directory.  The empty path leads nowhere. -/
def lookup (t : FileTree) (directory : List String) (path : String) : Lookup :=
  if path = "" then .failed .missing else t.follow (startOf directory path) (namesOf path)

/-- Something stands where the path leads. -/
def doesExist (t : FileTree) (directory : List String) (path : String) : Bool :=
  match t.lookup directory path with
  | .found _ _ => true
  | _ => false

/-- A file stands where the path leads. -/
def isFile (t : FileTree) (directory : List String) (path : String) : Bool :=
  match t.lookup directory path with
  | .found _ (.file _) => true
  | _ => false

/-- The text of a file. -/
def read (t : FileTree) (directory : List String) (path : String) : Except FileFault String :=
  match t.lookup directory path with
  | .found _ (.file text) => .ok text
  | .found _ .directory => .error ⟨.directory, .reading⟩
  | .vacant _ => .error ⟨.missing, .opening path⟩
  | .failed fault => .error ⟨fault, .opening path⟩

/-- Writes a file. -/
def write (t : FileTree) (directory : List String) (path text : String) :
    Except FileFault FileTree :=
  match t.lookup directory path with
  | .found _ .directory => .error ⟨.directory, .opening path⟩
  | .found place _ => .ok (t.put place (.file (kept text)))
  | .vacant place => .ok (t.put place (.file (kept text)))
  | .failed fault => .error ⟨fault, .opening path⟩

/-- Follows names from a directory and makes the directories that are missing. -/
def makeAlong (t : FileTree) :
    List String → List String → Except (FileFaultKind × FileTree) FileTree
  | _, [] => .ok t
  | here, name :: rest =>
    if name = "" ∨ name = "." then t.makeAlong here rest
    else if name = ".." then t.makeAlong here.dropLast rest
    else
      match t.get? (here ++ [name]) with
      | some .directory => t.makeAlong (here ++ [name]) rest
      | some (.file _) =>
        .error (if rest.isEmpty then .existing else .notDirectory, t)
      | none => (t.put (here ++ [name]) .directory).makeAlong (here ++ [name]) rest

/-- Makes a directory and all that lead to it.  A fault leaves those made so far. -/
def makeDirectories (t : FileTree) (directory : List String) (path : String) :
    Except FileFault Unit × FileTree :=
  if path = "" then (.error ⟨.missing, .makingDirectory path⟩, t)
  else
    match t.makeAlong (startOf directory path) (namesOf path) with
    | .ok t' => (.ok (), t')
    | .error (fault, t') => (.error ⟨fault, .makingDirectory path⟩, t')

/-- Moves a file to another path, over a file that stands there. -/
def rename (t : FileTree) (directory : List String) (origin target : String) :
    Except FileFault FileTree :=
  let operation := FileOperation.moving origin target
  match t.lookup directory origin with
  | .found old (.file text) =>
    match t.lookup directory target with
    | .found _ .directory => .error ⟨.directory, operation⟩
    | .found place _ => .ok ((t.erase old).put place (.file text))
    | .vacant place => .ok ((t.erase old).put place (.file text))
    | .failed fault => .error ⟨fault, operation⟩
  | .found _ .directory => .error ⟨.directory, operation⟩
  | .vacant _ => .error ⟨.missing, operation⟩
  | .failed fault => .error ⟨fault, operation⟩

/-- Takes away what stands where the path leads, and all below it; nothing there is fine. -/
def remove (t : FileTree) (directory : List String) (path : String) : FileTree :=
  match t.lookup directory path with
  | .found place _ => t.eraseBelow place
  | _ => t

/-- Copies a file. -/
def copy (t : FileTree) (directory : List String) (origin target : String) :
    Except FileFault FileTree :=
  let operation := FileOperation.copying origin target
  match t.lookup directory origin with
  | .found _ (.file text) =>
    match t.lookup directory target with
    | .found _ .directory => .error ⟨.directory, operation⟩
    | .found place _ => .ok (t.put place (.file text))
    | .vacant place => .ok (t.put place (.file text))
    | .failed fault => .error ⟨fault, operation⟩
  | .found _ .directory => .error ⟨.directory, operation⟩
  | .vacant _ => .error ⟨.missing, operation⟩
  | .failed fault => .error ⟨fault, operation⟩

end FileTree
end WorkflowDag
