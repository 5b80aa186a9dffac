import WorkflowDag.Task.Dependency

/-!
# Arrivals and trigger rules

A task waits on signals: tasks that succeed or fail, and branches that are chosen.  Signals gathered
at the same join make one arrival and have to come together; separate arrivals are alternatives.
The arrivals decide the trigger rule of a task.
-/

namespace WorkflowDag

/-- Something that a task can wait for. -/
inductive Signal where
  | success (task : String)
  | failure (task : String)
  | branch (step : PassedBranch)
deriving DecidableEq, Repr

namespace Signal

/-- The text that tells signals apart. -/
def key : Signal → String
  | success task => "ok:" ++ task
  | failure task => "error:" ++ task
  | branch step => "branch:" ++ step.decision ++ "#" ++ caseText step.caseIndex

/-- The signal is the failure of a task. -/
def isFailure : Signal → Bool
  | failure _ => true
  | _ => false

end Signal

/-- A signal and the join at which it is gathered, if any. -/
structure JoinedSignal where
  signal : Signal
  join : Option String
deriving DecidableEq, Repr

/-- One way of reaching a task. -/
structure Arrival where
  join : Option String
  signals : List Signal
deriving DecidableEq, Repr

/-- When a task runs, given the tasks it waits on. -/
inductive TriggerRule where
  | allSuccess
  | oneSuccess
  | oneFailed
  | noneFailedMinOneSuccess
deriving DecidableEq, Repr

namespace TriggerRule

/-- All trigger rules. -/
def all : List TriggerRule :=
  [allSuccess, oneSuccess, oneFailed, noneFailedMinOneSuccess]

/-- The name of a trigger rule. -/
def name : TriggerRule → String
  | allSuccess => "all_success"
  | oneSuccess => "one_success"
  | oneFailed => "one_failed"
  | noneFailedMinOneSuccess => "none_failed_min_one_success"

/-- The trigger rule of a name. -/
def ofName? (s : String) : Option TriggerRule :=
  all.find? fun rule => rule.name == s

end TriggerRule

namespace Dependency

/-- The outcome of the task it comes from; none when control comes from the start. -/
def originSignal? (d : Dependency) : Option Signal :=
  match d.origin, d.outcome with
  | none, _ => none
  | some task, .success => some (.success task)
  | some task, .failure => some (.failure task)

/-- The signal a task waits on: the last branch passed, or else the outcome of the task it comes
from. -/
def signal? (d : Dependency) : Option Signal :=
  match d.branches.getLast? with
  | some step => some (.branch step)
  | none => d.originSignal?

end Dependency

/-- The signals of a list of dependencies. -/
def joinedSignals (dependencies : List Dependency) : List JoinedSignal :=
  dependencies.filterMap fun d => d.signal?.map fun signal => ⟨signal, d.join⟩

namespace Arrival

/-- The text that tells arrivals apart: a join, or a signal on its own. -/
def keyOf (e : JoinedSignal) : String :=
  match e.join with
  | none => "signal:" ++ e.signal.key
  | some join => "join:" ++ join

/-- Adds a signal unless it is there already. -/
def addSignal (a : Arrival) (signal : Signal) : Arrival :=
  if a.signals.any fun other => other.key == signal.key then a
  else { a with signals := a.signals ++ [signal] }

/-- Adds a signal to the arrival it belongs to, or starts a new arrival at the end. -/
def place (e : JoinedSignal) : List (String × Arrival) → List (String × Arrival)
  | [] => [(keyOf e, ⟨e.join, [e.signal]⟩)]
  | (key, arrival) :: rest =>
    if key == keyOf e then (key, arrival.addSignal e.signal) :: rest
    else (key, arrival) :: place e rest

/-- Groups signals into arrivals, in the order in which they first occur. -/
def group (entries : List JoinedSignal) : List Arrival :=
  (entries.foldl (fun acc e => place e acc) []).map Prod.snd

/-- The arrival consists of a single failure. -/
def onlyFailures (a : Arrival) : Bool :=
  match a.signals with
  | [signal] => signal.isFailure
  | _ => false

end Arrival

/-- The arrivals of a list of dependencies. -/
def arrivals (dependencies : List Dependency) : List Arrival :=
  Arrival.group (joinedSignals dependencies)

/-- The rule for a list of arrivals: failures alone need one of them, several arrivals any one, and
a single arrival all of its signals, where those of a join may be skipped. -/
def TriggerRule.ofArrivals (found : List Arrival) : TriggerRule :=
  match found with
  | [] => .allSuccess
  | first :: others =>
    if (first :: others).all Arrival.onlyFailures then .oneFailed
    else if !others.isEmpty then .oneSuccess
    else if 1 < first.signals.length then .noneFailedMinOneSuccess
    else .allSuccess

/-- The trigger rule of a task with the given dependencies. -/
def TriggerRule.ofDependencies (dependencies : List Dependency) : TriggerRule :=
  .ofArrivals (arrivals dependencies)

end WorkflowDag
