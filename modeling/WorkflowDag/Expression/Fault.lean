import WorkflowDag.Pattern.Reading
import WorkflowDag.Text.Cut

/-!
# Why evaluation fails

An expression may be unreadable or unsupported, refer to a variable without a value, or use a
built-in member as if it were text or a function.
-/

namespace WorkflowDag

/-- Names of the supported functions, in ascending order. -/
def functionNames : List String :=
  ["concat", "firstNotNull", "replaceAll", "trim", "wf:conf", "wf:name", "wf:user"]

/-- Why an expression is not supported. -/
inductive ExpressionFault where
  | unterminatedString
  | unexpected (what : String)
  | unexpectedEnd
  | missingClose
  | missingCloseAfter (function : String)
  | trailing (what : String)
  | unterminatedExpression
  | unknownFunction (name : String)
  | argumentCount (count : Nat)
  | invalidPattern (source : String) (cause : PatternError)
  | unknownWorkflowName
deriving DecidableEq, Repr

namespace ExpressionFault

/-- The fault in words. -/
def message : ExpressionFault → String
  | unterminatedString => "unterminated string"
  | unexpected what => "unexpected \"" ++ what ++ "\""
  | unexpectedEnd => "unexpected end of expression"
  | missingClose => "expected \")\""
  | missingCloseAfter function => "expected \")\" after arguments of " ++ function
  | trailing what => "unsupported operator or trailing input \"" ++ what ++ "\""
  | unterminatedExpression => "unterminated $\x7b...\x7d expression"
  | unknownFunction name =>
    "unknown function \"" ++ name ++ "\" (supported: " ++
      Text.joinWith ", " functionNames ++ ")"
  | argumentCount count => "wrong number of arguments (" ++ Text.decimal count ++ ")"
  | invalidPattern source cause =>
    "Invalid regular expression: /" ++ source ++ "/g: " ++ cause.message
  | unknownWorkflowName => "the workflow name is not known here"

end ExpressionFault

/-- A use of a built-in member that has no meaning. -/
inductive Misuse where
  | calledAsFunction
  | trimmed
  | searched
  | usedAsReplacer
deriving DecidableEq, Repr

namespace Misuse

/-- The misuse in words. -/
def message : Misuse → String
  | calledAsFunction => "fn.arity is not iterable"
  | trimmed => "value.trim is not a function"
  | searched => "value.replace is not a function"
  | usedAsReplacer => "Cannot convert undefined or null to object"

end Misuse

/-- Why an expression has no value. -/
inductive EvalError where
  | unresolved (name : String)
  | unsupported (expression : String) (fault : ExpressionFault)
  | misuse (cause : Misuse)
deriving DecidableEq, Repr

namespace EvalError

/-- Message about an expression that is not supported. -/
def unsupportedMessage (expression reason : String) : String :=
  "Cannot evaluate \"" ++ expression ++ "\": " ++ reason

/-- The cause in words. -/
def message : EvalError → String
  | unresolved name => "Variable \"" ++ name ++ "\" is not defined in the configuration"
  | unsupported expression fault => unsupportedMessage expression fault.message
  | misuse cause => cause.message

end EvalError
end WorkflowDag
