import WorkflowDag.CommandLine.Run

/-!
# The program

Reads the arguments, carries out what they ask for on the disk and shows what there is to show.
-/

namespace WorkflowDag
namespace Program

/-- Work on the disk that may fail; log lines go to the logger as they come. -/
abbrev Disk := ReaderT Logger (ExceptT Failure IO)

/-- Ordinary text of a path. -/
def plainPath (path : String) : String := Text.join path

/-- The kind of fault behind an error of the system. -/
def faultKind : IO.Error → FileFaultKind
  | .alreadyExists _ _ _ => .existing
  | .noFileOrDirectory _ _ _ => .missing
  | .inappropriateType _ code _ => if code = 20 then .notDirectory else .directory
  | .permissionDenied _ code text => .refused (if code = 1 then "EPERM" else "EACCES") text
  | .resourceBusy _ text => .refused "EBUSY" text
  | .hardwareFault _ text => .refused "EIO" text
  | other => .refused "UNKNOWN" (toString other)

/-- Carries out an operation on the disk. -/
def attempt {α : Type} (operation : FileOperation) (work : IO α) : Disk α := fun _ => do
  match ← (work.toBaseIO : BaseIO _) with
  | .ok a => pure a
  | .error e => throw (.file ⟨faultKind e, operation⟩)

/-- Work that succeeds or not. -/
def succeeds {α : Type} (work : IO α) : Disk Bool := fun _ => do
  match ← (work.toBaseIO : BaseIO _) with
  | .ok _ => pure true
  | .error _ => pure false

/-- Opens a path for reading. -/
def openPath (path : String) : IO IO.FS.Handle :=
  IO.FS.Handle.mk (plainPath path) .read

/-- Reads the first unit of a file, which a directory does not have. -/
def readStart (path : String) : IO ByteArray := do
  let handle ← openPath path
  handle.read 1

instance : FileSystem Disk where
  doesExist path := succeeds (openPath path)
  isFile path := succeeds (readStart path)
  read path := attempt .reading do
    let text ← IO.FS.readFile (plainPath path)
    pure (Text.split text)
  write path text := attempt (.opening path) (IO.FS.writeFile (plainPath path) (Text.join text))
  makeDirectories path := attempt (.makingDirectory path) (IO.FS.createDirAll (plainPath path))
  rename origin target :=
    attempt (.moving origin target) (IO.FS.rename (plainPath origin) (plainPath target))
  remove path := do
    let _ ← succeeds (IO.FS.removeFile (plainPath path))
    pure ()
  copy origin target := attempt (.copying origin target) do
    let bytes ← IO.FS.readBinFile (plainPath origin)
    IO.FS.writeBinFile (plainPath target) bytes
  note entry := do
    let logger ← read
    for line in entry.lines logger do
      IO.eprintln (Text.join line)

/-- The units of which names of runs are made. -/
def runIdUnits : List Char :=
  "ABCDEFGHIJKLMNOPQRSTUVWXYZabcdefghijklmnopqrstuvwxyz0123456789_-".toList

/-- A new name for a run. -/
def newRunId : Nat → IO String
  | 0 => pure ""
  | count + 1 => do
    let index ← IO.rand 0 (runIdUnits.length - 1)
    let rest ← newRunId count
    pure (String.ofList [(runIdUnits[index]?).getD 'u'] ++ rest)

/-- Shows a response. -/
def respond (r : CommandLine.Response) : IO UInt32 := do
  for line in r.output do
    IO.println (Text.join line)
  for line in r.errors do
    IO.eprintln (Text.join line)
  pure (if r.code = 0 then 0 else 1)

/-- Carries out a conversion on the disk. -/
def convertOnDisk (c : CommandLine.Context) (input output : String)
    (options : CommandLine.Arguments) : IO UInt32 := do
  let work : Disk (List String) := CommandLine.convert c input output options
  match ← (work (options.logger c)).run with
  | .ok lines => respond { code := 0, output := lines }
  | .error failure => respond { code := 1, errors := [c.failureLine failure] }

end Program
end WorkflowDag

open WorkflowDag in
/-- Runs the program. -/
def main (arguments : List String) : IO UInt32 := do
  match CommandLine.read (arguments.map Text.split) with
  | .respond response => Program.respond response
  | .convert input output options =>
    let directory ← IO.currentDir
    let systemUser ← IO.getEnv "USER"
    let runId ← Program.newRunId 8
    let context : CommandLine.Context :=
      { systemUser := systemUser.map Text.split
        workingDirectory := Text.split directory.toString
        runId }
    Program.convertOnDisk context input output options
