import WorkflowDag.Expression.Basic
import WorkflowDag.Expression.Fault
import WorkflowDag.Expression.Intrinsic
import WorkflowDag.Pattern.Replacing
import WorkflowDag.Text.Blank

/-!
# Evaluating expressions

The value of an expression in a scope.  The name and the number of arguments of a call are checked
before any argument is evaluated, and arguments are evaluated from left to right.
-/

namespace WorkflowDag

/-- What to do with a variable that has no value. -/
inductive Unresolved where
  | error
  | defer
deriving DecidableEq, Repr

/-- What expressions are evaluated against. -/
structure Scope where
  definitions : Record
  workflowName : Option String := none
  unresolved : Unresolved := .error
deriving Repr

namespace Scope

/-- The value of a variable: its entry, or else the built-in member of that name. -/
def lookup? (scope : Scope) (name : String) : Option Value :=
  match scope.definitions.get? name with
  | some content => some (.text content)
  | none => (Intrinsic.ofName? name).map .member

/-- The value of a variable that has to have one. -/
def lookup (scope : Scope) (name : String) : Except EvalError Value :=
  match scope.lookup? name with
  | some value => .ok value
  | none => .error (.unresolved name)

end Scope

/-- The functions that expressions may call. -/
inductive Builtin where
  | firstNotNull
  | concat
  | trim
  | replaceAll
  | conf
  | user
  | workflowName
deriving DecidableEq, Repr

namespace Builtin

/-- The name of a function. -/
def name : Builtin → String
  | firstNotNull => "firstNotNull"
  | concat => "concat"
  | trim => "trim"
  | replaceAll => "replaceAll"
  | conf => "wf:conf"
  | user => "wf:user"
  | workflowName => "wf:name"

/-- All functions. -/
def all : List Builtin :=
  [firstNotNull, concat, trim, replaceAll, conf, user, workflowName]

/-- The function of a name. -/
def ofName? (s : String) : Option Builtin :=
  all.find? fun function => function.name == s

/-- The function can be called with that many arguments. -/
def accepts (function : Builtin) (count : Nat) : Bool :=
  match function with
  | firstNotNull => decide (1 ≤ count)
  | concat => count == 2
  | trim => count == 1
  | replaceAll => count == 3
  | conf => count == 1
  | user => count == 0
  | workflowName => count == 0

/-- The text with each match of the pattern replaced; a replacement that is a member writes what its
`replacer` says. -/
def replaced (pattern : SearchPattern) (text : String) (replacement : Value) :
    Except EvalError String :=
  match replacement with
  | .text template => .ok (pattern.replaceAll text template)
  | .member intrinsic =>
    let cs := text.toList
    let found := pattern.allMatches cs
    match intrinsic.replacer with
    | .fixed written =>
      .ok (String.ofList (SearchPattern.rebuild cs (fun _ => written.toList) 0 found))
    | .same => .ok text
    | .none => if found.isEmpty then .ok text else .error (.misuse .usedAsReplacer)

/-- Replaces all matches of a pattern.  The pattern is read first. -/
def replaceAllIn (text pattern replacement : Value) : Except EvalError Value :=
  match SearchPattern.read pattern.shown with
  | .error cause =>
    .error (.unsupported ("replaceAll(..., \x27" ++ pattern.shown ++ "\x27, ...)")
      (.invalidPattern pattern.shown cause))
  | .ok compiled =>
    match text with
    | .text content => (replaced compiled content replacement).map .text
    | .member _ => .error (.misuse .searched)

/-- Applies a function to the values of its arguments. -/
def apply (function : Builtin) (scope : Scope) (arguments : List Value) : Except EvalError Value :=
  match function, arguments with
  | firstNotNull, args => .ok ((args.find? fun value => value != .text "").getD (.text ""))
  | concat, [a, b] => .ok (.text (a.shown ++ b.shown))
  | trim, [.text content] => .ok (.text (Text.trim content))
  | trim, [.member _] => .error (.misuse .trimmed)
  | replaceAll, [text, pattern, replacement] => replaceAllIn text pattern replacement
  | conf, [name] => .ok ((scope.lookup? name.shown).getD (.text ""))
  | user, _ => scope.lookup "user.name"
  | workflowName, _ =>
    match scope.workflowName with
    | some name => .ok (.text name)
    | none => .error (.unsupported "wf:name()" .unknownWorkflowName)
  | _, _ => .ok (.text "")

end Builtin

namespace Expression

/-- A call with its arguments left out. -/
def callText (name : String) (arguments : List Expression) : String :=
  name ++ "(" ++ (if arguments.isEmpty then "" else "...") ++ ")"

/-- The function that a call names, fit for the number of arguments. -/
def callee (name : String) (arguments : List Expression) : Except EvalError Builtin :=
  match Builtin.ofName? name with
  | some function =>
    if function.accepts arguments.length then .ok function
    else .error (.unsupported (callText name arguments) (.argumentCount arguments.length))
  | none =>
    if (Intrinsic.ofName? name).isSome then .error (.misuse .calledAsFunction)
    else .error (.unsupported (callText name arguments) (.unknownFunction name))

/-- The truth value as a text. -/
def ofBool (b : Bool) : Value :=
  .text (if b then "true" else "false")

mutual

/-- Value of an expression. -/
def eval (scope : Scope) : Expression → Except EvalError Value
  | literal value => .ok (.text value)
  | reference name => scope.lookup name
  | compare op left right => do
    let a ← eval scope left
    let b ← eval scope right
    pure (ofBool (match op with
      | .eq => a == b
      | .ne => a != b))
  | call name arguments => do
    let function ← callee name arguments
    let values ← evalAll scope arguments
    function.apply scope values

/-- Values of a list of expressions. -/
def evalAll (scope : Scope) : List Expression → Except EvalError (List Value)
  | [] => .ok []
  | e :: rest => do
    let value ← eval scope e
    let values ← evalAll scope rest
    pure (value :: values)

end

end Expression
end WorkflowDag
