import WorkflowDag.CommandLine.Value
import WorkflowDag.Settings.Basic

/-!
# Options

The options of the command line and the values they give.
-/

namespace WorkflowDag
namespace CommandLine

/-- The options of a conversion. -/
inductive ConvertOption where
  | input
  | output
  | dag
  | user
  | startDaysAgo
  | scheduleInterval
  | param
  | deferUnresolved
  | strictDecisions
  | summary
  | verbose
  | quiet
deriving DecidableEq, Repr

namespace ConvertOption

/-- All options, in the order in which they are listed. -/
def all : List ConvertOption :=
  [input, output, dag, user, startDaysAgo, scheduleInterval, param, deferUnresolved,
    strictDecisions, summary, verbose, quiet]

/-- The short name of an option, if it has one. -/
def short? : ConvertOption → Option String
  | input => some "-i"
  | output => some "-o"
  | dag => some "-d"
  | user => some "-u"
  | startDaysAgo => some "-s"
  | scheduleInterval => some "-v"
  | param => some "-p"
  | _ => none

/-- The long name of an option. -/
def long : ConvertOption → String
  | input => "--input"
  | output => "--output"
  | dag => "--dag"
  | user => "--user"
  | startDaysAgo => "--start-days-ago"
  | scheduleInterval => "--schedule-interval"
  | param => "--param"
  | deferUnresolved => "--defer-unresolved"
  | strictDecisions => "--strict-decisions"
  | summary => "--summary"
  | verbose => "--verbose"
  | quiet => "--quiet"

/-- The word for the value of an option, if it takes one. -/
def valueWord? : ConvertOption → Option String
  | input => some "<dir>"
  | output => some "<dir>"
  | dag => some "<name>"
  | user => some "<name>"
  | startDaysAgo => some "<days>"
  | scheduleInterval => some "<days>"
  | param => some "<key=value>"
  | _ => none

/-- The option takes a value. -/
def takesValue (o : ConvertOption) : Bool :=
  o.valueWord?.isSome

/-- How an option is shown. -/
def flags (o : ConvertOption) : String :=
  let names := match o.short? with
    | some short => short ++ ", " ++ o.long
    | none => o.long
  match o.valueWord? with
  | some word => names ++ " " ++ word
  | none => names

/-- The option of a name. -/
def ofName? (name : String) : Option ConvertOption :=
  all.find? fun o => o.short? == some name || o.long == name

end ConvertOption

/-- The values of the options of a conversion. -/
structure Arguments where
  input : Option String := none
  output : Option String := none
  choices : Choices := {}
  params : Record := .empty
  summary : Bool := false
  verbose : Bool := false
  quiet : Bool := false
deriving Repr

/-- Sets an option; an option that takes no value ignores it. -/
def Arguments.assign (s : Arguments) (o : ConvertOption) (value : String) :
    Except ValueFault Arguments :=
  match o with
  | .input => .ok { s with input := some value }
  | .output => .ok { s with output := some value }
  | .dag => .ok { s with choices := { s.choices with dagName := some value } }
  | .user => .ok { s with choices := { s.choices with user := some value } }
  | .startDaysAgo => (readDays value).map fun days =>
      { s with choices := { s.choices with startDaysAgo := some days } }
  | .scheduleInterval => (readDays value).map fun days =>
      { s with choices := { s.choices with scheduleIntervalDays := some days } }
  | .param => (readParam s.params value).map fun params => { s with params }
  | .deferUnresolved => .ok { s with choices := { s.choices with deferUnresolved := true } }
  | .strictDecisions => .ok { s with choices := { s.choices with strictDecisions := true } }
  | .summary => .ok { s with summary := true }
  | .verbose => .ok { s with verbose := true }
  | .quiet => .ok { s with quiet := true }

end CommandLine
end WorkflowDag
