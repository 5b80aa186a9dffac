import WorkflowDag.Text.Cut

/-!
# Help

The texts that explain the command line.
-/

namespace WorkflowDag
namespace CommandLine

/-- The name of the program. -/
def programName : String := "flowgraph"

/-- The version of the program. -/
def version : String := "0.1.0"

/-- Lines as one text. -/
def textOf (lines : List String) : String :=
  Text.joinWith "\n" lines

/-- The help about the program. -/
def programHelp : String :=
  textOf
    ["Usage: flowgraph [options] [command]",
      "",
      "Translate control-flow XML workflows into Airflow DAGs",
      "",
      "Options:",
      "  -V, --version      output the version number",
      "  -h, --help         display help for command",
      "",
      "Commands:",
      "  convert [options]  Convert <input>/workflow.xml into <output>/<dag>.py",
      "  help [command]     display help for command"]

/-- The help about conversions. -/
def convertHelp : String :=
  textOf
    ["Usage: flowgraph convert [options]",
      "",
      "Convert <input>/workflow.xml into <output>/<dag>.py",
      "",
      "Options:",
      "  -i, --input <dir>               Workflow directory",
      "  -o, --output <dir>              Directory the DAG is written to",
      "  -d, --dag <name>                DAG name (default: input directory name)",
      "  -u, --user <name>               Value of user.name",
      "  -s, --start-days-ago <days>     DAG start date, in days before today",
      "  -v, --schedule-interval <days>  Schedule interval in days (0: unscheduled)",
      "  -p, --param <key=value>         Configuration entry (repeatable) (default:",
      "                                  \x7b\x7d)",
      "  --defer-unresolved              Leave unresolved $\x7bname\x7d for the DAG params",
      "  --strict-decisions              Reject decisions where several guards hold",
      "  --summary                       Print the tasks and decisions of the DAG",
      "  --verbose                       Log debug output",
      "  --quiet                         Log errors only",
      "  -h, --help                      display help for command"]

end CommandLine
end WorkflowDag
