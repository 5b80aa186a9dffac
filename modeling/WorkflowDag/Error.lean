import WorkflowDag.Expression.Fault

/-!
# Errors

Every way in which a conversion fails, by its cause.  `message` puts a cause into words, `report` is
what a user sees of it.
-/

namespace WorkflowDag

/-- The kinds of node. -/
inductive NodeKind where
  | start
  | action
  | decision
  | fork
  | join
  | kill
  | finish
deriving DecidableEq, Repr

namespace NodeKind

/-- The word for a kind, which is also the tag of its elements. -/
def word : NodeKind → String
  | start => "start"
  | action => "action"
  | decision => "decision"
  | fork => "fork"
  | join => "join"
  | kill => "kill"
  | finish => "end"

end NodeKind

/-- What is wrong with a node of a workflow document. -/
inductive NodeFault where
  | missingAttribute (tag key : String)
  | namelessProperty
  | unknownPrepareStep (tag : String)
  | noActionType
  | severalActionTypes (tags : List String)
  | transitionCount
  | noSwitch
  | noCases
  | defaultCount
  | tooFewPaths
  | repeatedPath
  | unrecognizedKind (tag : String)
  | namelessWorkflow
  | noStart
  | pathStartsAtJoin (join : String)
  | pathNeverJoins (path : String)
  | pathReachesSeveral (path : String)
  | pathsDiffer (first second : String)
  | declaredNoJoin (declared : String) (kind : NodeKind)
  | declaredDiffers (declared found : String)
deriving DecidableEq, Repr

namespace NodeFault

/-- The fault in words, to follow the name of the node. -/
def message : NodeFault → String
  | missingAttribute tag key =>
    "<" ++ tag ++ "> is missing the \"" ++ key ++ "\" attribute"
  | namelessProperty => "has a property without a name"
  | unknownPrepareStep tag => "has an unknown prepare step <" ++ tag ++ ">"
  | noActionType => "has no action type element"
  | severalActionTypes tags =>
    "declares more than one action type (" ++ Text.joinWith ", " tags ++ ")"
  | transitionCount => "must have exactly one <ok> and one <error> transition"
  | noSwitch => "has no <switch> element"
  | noCases => "has no <case> branches"
  | defaultCount => "must have exactly one <default>"
  | tooFewPaths => "must fork into at least two paths"
  | repeatedPath => "forks into the same path twice"
  | unrecognizedKind tag => "has unrecognized kind <" ++ tag ++ ">"
  | namelessWorkflow => "is missing the \"name\" attribute of the workflow"
  | noStart => "is missing: the workflow has no <start> element"
  | pathStartsAtJoin join => "has a path that starts at join \"" ++ join ++ "\""
  | pathNeverJoins path => "has path \"" ++ path ++ "\" that never reaches a join"
  | pathReachesSeveral path => "has path \"" ++ path ++ "\" that reaches several joins"
  | pathsDiffer first second =>
    "has paths closing at different joins (\"" ++ first ++ "\", \"" ++ second ++ "\")"
  | declaredNoJoin declared kind =>
    "declares \"" ++ declared ++ "\" as its join, which is a " ++ kind.word ++ " node"
  | declaredDiffers declared found =>
    "declares join \"" ++ declared ++ "\" but its paths close at \"" ++ found ++ "\""

end NodeFault

/-- Why a node cannot be turned into tasks. -/
inductive TaskFault where
  | idTaken (id owner : String)
  | guardFailed (cause : EvalError)
  | severalGuards (count : Nat)
  | outsideFork
  | noTransition (target : String)
  | noClosingJoin
  | noStartNode
  | noSelection
  | noBranchTask
  | neverReady
  | missingAttribute (tag key : String)
  | unknownFileOperation (tag : String)
  | noExec
  | incompleteRemote
deriving DecidableEq, Repr

namespace TaskFault

/-- The fault in words. -/
def message : TaskFault → String
  | idTaken id owner => "its task id \"" ++ id ++ "\" is already taken by node \"" ++ owner ++ "\""
  | guardFailed cause => "guard evaluation failed: " ++ cause.message
  | severalGuards count =>
    Text.decimal count ++ " guards hold at once; exactly one branch must be selectable"
  | outsideFork => "is reached outside of the fork it closes"
  | noTransition target => "has no transition to \"" ++ target ++ "\""
  | noClosingJoin => "has no join closing its paths"
  | noStartNode => "start node is not in the graph"
  | noSelection => "has no recorded branch selection"
  | noBranchTask => "has no task for one of its branches"
  | neverReady => "its upstream dependencies never become ready"
  | missingAttribute tag key =>
    "<" ++ tag ++ "> is missing the \"" ++ key ++ "\" attribute"
  | unknownFileOperation tag => "unknown fs operation <" ++ tag ++ ">"
  | noExec => "shell action has no <exec>"
  | incompleteRemote => "ssh action needs both <host> and <command>"

end TaskFault

/-- What is wrong with a configuration value. -/
inductive SettingFault where
  | unexpectedProperty
  | expectedString
  | expectedLength
  | expectedInteger
  | expectedNonNegative
  | expectedBoolean
  | expectedArray
  | expectedObject
  | expectedChoice
deriving DecidableEq, Repr

namespace SettingFault

/-- The fault in words. -/
def message : SettingFault → String
  | unexpectedProperty => "Unexpected property"
  | expectedString => "Expected string"
  | expectedLength => "Expected string length greater or equal to 1"
  | expectedInteger => "Expected integer"
  | expectedNonNegative => "Expected integer to be greater or equal to 0"
  | expectedBoolean => "Expected boolean"
  | expectedArray => "Expected array"
  | expectedObject => "Expected object"
  | expectedChoice => "Expected union value"

end SettingFault

/-- A problem with a configuration source. -/
inductive ConfigurationProblem where
  | noWorkflowFile
  /-- The file cannot be read, for the reason given. -/
  | unreadable (reason : String)
  | invalidJson
  | notAnObject
  | setting (path : String) (fault : SettingFault)
  | property (name : String) (cause : EvalError)
deriving DecidableEq, Repr

namespace ConfigurationProblem

/-- The problem in words.  A misuse of a built-in member is marked as such. -/
def message : ConfigurationProblem → String
  | noWorkflowFile => "the workflow file does not exist"
  | unreadable reason => reason
  | invalidJson => "invalid JSON"
  | notAnObject => "expected an object"
  | setting path fault => path ++ ": " ++ fault.message
  | property name (.misuse cause) => name ++ ": TypeError: " ++ cause.message
  | property name cause => name ++ ": " ++ cause.message

end ConfigurationProblem

/-- The kinds of error. -/
inductive ErrorKind where
  | malformedNode
  | duplicateNode
  | danglingReference
  | unresolvedVariable
  | unsupportedExpression
  | cyclicGraph
  | transformation
  | unsupportedActionType
  | configuration
  | typeError
deriving DecidableEq, Repr

namespace ErrorKind

/-- The name of a kind. -/
def name : ErrorKind → String
  | malformedNode => "MalformedNodeError"
  | duplicateNode => "DuplicateNodeError"
  | danglingReference => "DanglingReferenceError"
  | unresolvedVariable => "UnresolvedVariableError"
  | unsupportedExpression => "UnsupportedExpressionError"
  | cyclicGraph => "CyclicGraphError"
  | transformation => "TransformationError"
  | unsupportedActionType => "UnsupportedActionTypeError"
  | configuration => "ConfigurationError"
  | typeError => "TypeError"

end ErrorKind

namespace EvalError

/-- The kind of an evaluation error. -/
def kind : EvalError → ErrorKind
  | unresolved _ => .unresolvedVariable
  | unsupported _ _ => .unsupportedExpression
  | misuse _ => .typeError

end EvalError

/-- What a user sees of an error. -/
structure Report where
  kind : ErrorKind
  message : String
  /-- The node at fault. -/
  node : Option String
  /-- The kind of the error behind this one. -/
  cause : Option ErrorKind := none
deriving DecidableEq, Repr

namespace Report

/-- Names the node in which an expression failed, unless a node is named already.  Other reports
stay as they are. -/
def atNode (r : Report) (node : String) : Report :=
  if (r.kind = .unresolvedVariable ∨ r.kind = .unsupportedExpression) ∧
      (r.node = none ∨ r.node = some "") then { r with node := some node }
  else r

/-- The report on one line. -/
def describe (r : Report) : String :=
  let place := match r.node with
    | some node => " [node=" ++ node ++ "]"
    | none => ""
  if r.kind = .typeError then "Error: " ++ r.message
  else r.kind.name ++ place ++ ": " ++ r.message

end Report

/-- An error of a conversion. -/
inductive Error where
  | malformedDocument
  | malformedNode (node : String) (fault : NodeFault)
  | duplicateNode (node : String)
  | danglingReference (node target : String)
  | evaluation (cause : EvalError) (node : Option String)
  | cycle (node : String) (path : List String)
  | task (node : String) (fault : TaskFault)
  | unsupportedAction (node actionType : String) (supported : List String)
  | configuration (source : String) (problems : List ConfigurationProblem)
deriving DecidableEq, Repr

namespace Error

/-- The kind of an error. -/
def kind : Error → ErrorKind
  | malformedDocument => .malformedNode
  | malformedNode _ _ => .malformedNode
  | duplicateNode _ => .duplicateNode
  | danglingReference _ _ => .danglingReference
  | evaluation cause _ => cause.kind
  | cycle _ _ => .cyclicGraph
  | task _ _ => .transformation
  | unsupportedAction _ _ _ => .unsupportedActionType
  | configuration _ _ => .configuration

/-- The cause in words. -/
def message : Error → String
  | malformedDocument => "Workflow document is not well-formed XML"
  | malformedNode node fault => "Node \"" ++ node ++ "\" " ++ fault.message
  | duplicateNode node => "Node name \"" ++ node ++ "\" is declared more than once"
  | danglingReference node target =>
    "Node \"" ++ node ++ "\" transitions to unknown node \"" ++ target ++ "\""
  | evaluation cause _ => cause.message
  | cycle node path => "Cycle detected: " ++ Text.joinWith " -> " (path ++ [node])
  | task node fault => "Cannot transform \"" ++ node ++ "\": " ++ fault.message
  | unsupportedAction node actionType supported =>
    "Action \"" ++ node ++ "\" uses type \"" ++ actionType ++
      "\", which has no rendering template (supported: " ++ Text.joinWith ", " supported ++ ")"
  | configuration source problems =>
    "Invalid configuration in " ++ source ++ ": " ++
      Text.joinWith "; " (problems.map ConfigurationProblem.message)

/-- The node at fault. -/
def node : Error → Option String
  | malformedDocument => none
  | malformedNode node _ => some node
  | duplicateNode node => some node
  | danglingReference node _ => some node
  | evaluation _ node => node
  | cycle node _ => some node
  | task node _ => some node
  | unsupportedAction node _ _ => some node
  | configuration _ _ => none

/-- The kind of the error behind an error, where it is an error of a conversion. -/
def cause : Error → Option ErrorKind
  | task _ (.guardFailed (.misuse _)) => none
  | task _ (.guardFailed cause) => some cause.kind
  | _ => none

/-- What a user sees of an error. -/
def report (e : Error) : Report :=
  ⟨e.kind, e.message, e.node, e.cause⟩

/-- Names the node in which an expression failed, unless a node is named already. -/
def atNode (e : Error) (node : String) : Error :=
  match e with
  | evaluation cause none => evaluation cause (some node)
  | evaluation cause (some "") => evaluation cause (some node)
  | other => other

end Error
end WorkflowDag
