import WorkflowDag.File.Tree
import WorkflowDag.Journal.Event

/-!
# File systems

The operations on files that a conversion needs, whatever carries them out.  `Files` carries them
out on a file tree: the tree and the journal stay as they are when an operation fails.  Operations
fail by what stands in the tree, or because the system refuses them for reasons that the tree does
not show.  Removing does not fail.
-/

namespace WorkflowDag

/-- A place where files can be read and written, and events noted. -/
class FileSystem (m : Type → Type) where
  doesExist : String → m Bool
  isFile : String → m Bool
  read : String → m String
  write : String → String → m Unit
  makeDirectories : String → m Unit
  rename : String → String → m Unit
  remove : String → m Unit
  copy : String → String → m Unit
  note : Entry → m Unit

/-- A file tree with its working directory, and the events noted so far. -/
structure World where
  files : FileTree := .empty
  directory : List String := []
  trail : List Entry := []
  /-- The operations that the system refuses, each with the fault it gives. -/
  refusals : List FileFault := []
deriving Repr

/-- The fault with which the system refuses an operation, if it does. -/
def World.refusal? (w : World) (operation : FileOperation) : Option FileFault :=
  w.refusals.find? fun fault => fault.operation = operation

/-- Work on a file tree that may fail. -/
abbrev Files := ExceptT Failure (StateM World)

namespace Files

/-- Looks at the file tree. -/
def inspect {α : Type} (f : FileTree → List String → α) : Files α := do
  let w ← getThe World
  pure (f w.files w.directory)

/-- Looks at the file tree, which may fail. -/
def inspectOrFail {α : Type} (f : FileTree → List String → Except FileFault α) : Files α := do
  let w ← getThe World
  match f w.files w.directory with
  | .ok a => pure a
  | .error fault => throw (.file fault)

/-- Changes the file tree, or leaves it as it is and fails. -/
def change (f : FileTree → List String → Except FileFault FileTree) : Files Unit := do
  let w ← getThe World
  match f w.files w.directory with
  | .ok t => set { w with files := t }
  | .error fault => throw (.file fault)

/-- Makes directories; a fault leaves those made so far. -/
def makeDirectories (path : String) : Files Unit := do
  let w ← getThe World
  let (result, t) := w.files.makeDirectories w.directory path
  set { w with files := t }
  match result with
  | .ok () => pure ()
  | .error fault => throw (.file fault)

/-- Carries out an operation unless the system refuses it. -/
def attempt {α : Type} (operation : FileOperation) (work : Files α) : Files α := do
  let w ← getThe World
  match w.refusal? operation with
  | some fault => throw (.file fault)
  | none => work

instance : FileSystem Files where
  doesExist path := inspect fun t directory => t.doesExist directory path
  isFile path := inspect fun t directory => t.isFile directory path
  read path := attempt (.opening path) (inspectOrFail fun t directory => t.read directory path)
  write path text :=
    attempt (.opening path) (change fun t directory => t.write directory path text)
  makeDirectories path := attempt (.makingDirectory path) (makeDirectories path)
  rename origin target :=
    attempt (.moving origin target) (change fun t directory => t.rename directory origin target)
  remove path := change fun t directory => .ok (t.remove directory path)
  copy origin target :=
    attempt (.copying origin target) (change fun t directory => t.copy directory origin target)
  note entry := modifyThe World fun w => { w with trail := w.trail ++ [entry] }

/-- Carries out work on a file tree. -/
def runOn {α : Type} (work : Files α) (w : World) : Except Failure α × World :=
  work.run w

end Files

section

variable {m : Type → Type} [Monad m] [MonadExceptOf Failure m] [FileSystem m]

/-- Notes an event in nested scopes. -/
def note (scopes : List String) (event : Event) : m Unit :=
  FileSystem.note ⟨scopes, event⟩

/-- Notes the trail of a computation and goes on with its result. -/
def perform {α : Type} (t : Traced α) : m α := do
  t.trail.forM FileSystem.note
  match t.result with
  | .ok a => pure a
  | .error cause => throw (.error cause)

/-- Goes on with a result. -/
def orFail {α : Type} (result : Except Error α) : m α :=
  match result with
  | .ok a => pure a
  | .error cause => throw (.error cause)

end
end WorkflowDag
