import WorkflowDag.Error

/-!
# Faults of files

What can go wrong with files and directories, in the words in which it is reported.
-/

namespace WorkflowDag

/-- Why an operation on files fails. -/
inductive FileFaultKind where
  | missing
  | existing
  | directory
  | notDirectory
  /-- The system has reasons of its own, whatever the files are: `EACCES`, `EBUSY`, `EXDEV`. -/
  | refused (code text : String)
deriving DecidableEq, Repr

namespace FileFaultKind

/-- The code of a fault. -/
def code : FileFaultKind → String
  | missing => "ENOENT"
  | existing => "EEXIST"
  | directory => "EISDIR"
  | notDirectory => "ENOTDIR"
  | refused code _ => code

/-- The fault in words. -/
def text : FileFaultKind → String
  | missing => "no such file or directory"
  | existing => "file already exists"
  | directory => "illegal operation on a directory"
  | notDirectory => "not a directory"
  | refused _ text => text

end FileFaultKind

/-- An operation on files. -/
inductive FileOperation where
  | opening (path : String)
  | reading
  | makingDirectory (path : String)
  | moving (origin target : String)
  | copying (origin target : String)
deriving DecidableEq, Repr

/-- The operation in words. -/
def FileOperation.text : FileOperation → String
  | opening path => "open '" ++ path ++ "'"
  | reading => "read"
  | makingDirectory path => "mkdir '" ++ path ++ "'"
  | moving origin target => "rename '" ++ origin ++ "' -> '" ++ target ++ "'"
  | copying origin target => "copyfile '" ++ origin ++ "' -> '" ++ target ++ "'"

/-- A fault and the operation in which it occurred. -/
structure FileFault where
  kind : FileFaultKind
  operation : FileOperation
deriving DecidableEq, Repr

/-- The fault in words. -/
def FileFault.message (f : FileFault) : String :=
  f.kind.code ++ ": " ++ f.kind.text ++ ", " ++ f.operation.text

/-- Why work on files ends: an error of the conversion, or a fault of the files. -/
inductive Failure where
  | error (cause : Error)
  | file (fault : FileFault)
deriving DecidableEq, Repr

/-- The failure on one line. -/
def Failure.describe : Failure → String
  | error cause => cause.report.describe
  | file fault => "Error: " ++ fault.message

end WorkflowDag
