import WorkflowDag.CommandLine.Reading
import WorkflowDag.Directory.Conversion

/-!
# Running the command line

Carries out what the command line asks for.  `run` does so on a file tree; what a run logs comes
before its failure, if any, in the response.
-/

namespace WorkflowDag
namespace CommandLine

/-- Where the program runs. -/
structure Context where
  /-- The directory that holds the settings of the project. -/
  settingsFrom : String := "."
  /-- The user of the system, if known. -/
  systemUser : Option String := none
  /-- The path from which relative paths are seen. -/
  workingDirectory : String
  /-- Tells this run from others. -/
  runId : String
  /-- Log lines and failures are painted. -/
  color : Bool := false
deriving Repr

/-- How much a conversion logs. -/
def Arguments.level (o : Arguments) : Level :=
  if o.verbose then .debug else if o.quiet then .error else .info

/-- The logger of a conversion. -/
def Arguments.logger (o : Arguments) (c : Context) : Logger :=
  { scope := programName, level := o.level, color := c.color }

/-- A failure as it is shown. -/
def Context.failureLine (c : Context) (failure : Failure) : String :=
  if c.color then Paint.red.apply failure.describe else failure.describe

/-- The lines that report a conversion. -/
def reportLines (r : Directory.Report) : List String :=
  ("Wrote " ++ r.dagPath ++ " (run " ++ r.runId ++ ")") :: r.assets.map ("Copied " ++ ·)

/-- The lines that sum up a conversion. -/
def summaryLines (r : Directory.Report) : Except Error (List String) :=
  r.graph.summary r.assets.length

section

variable {m : Type → Type} [Monad m] [MonadExceptOf Failure m] [FileSystem m]

/-- Carries out a conversion; the result are the lines it shows. -/
def convert (c : Context) (input output : String) (o : Arguments) : m (List String) := do
  let settings ← Directory.loadSettings c.settingsFrom
  let report ← Directory.convertDirectory
    { input, output, settings := settings.choose o.choices, params := o.params,
      systemUser := c.systemUser, workingDirectory := c.workingDirectory, runId := c.runId }
  if o.summary then
    let lines ← orFail (summaryLines report)
    pure (reportLines report ++ lines)
  else pure (reportLines report)

end

/-- Runs the program on a file tree. -/
def run (c : Context) (arguments : List String) (w : World) : Response × World :=
  match read arguments with
  | .respond response => (response, w)
  | .convert input output options =>
    let (result, w') := (convert c input output options : Files _).runOn { w with trail := [] }
    let logged := w'.trail.flatMap fun entry => entry.lines (options.logger c)
    match result with
    | .ok lines => ({ code := 0, output := lines, errors := logged }, w')
    | .error failure => ({ code := 1, errors := logged ++ [c.failureLine failure] }, w')

end CommandLine
end WorkflowDag
