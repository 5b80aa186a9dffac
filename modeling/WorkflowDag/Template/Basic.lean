import WorkflowDag.Expression.Reading

/-!
# Templates

A template is a text with expressions between `${` and `}`.  A closing brace inside a quoted string
does not end an expression.
-/

namespace WorkflowDag

/-- A piece of a template: a run of plain text, or an expression with its written form. -/
inductive Segment where
  | plain (text : String)
  | expression (source : String) (parsed : Expression)
deriving Repr

namespace Template

/-- Two units open an expression. -/
def opener : List Char := ['$', '\x7b']

/-- The plain segment of the units held backwards; none for no units. -/
def plainOf (held : List Char) : List Segment :=
  if held.isEmpty then [] else [.plain (String.ofList held.reverse)]

/-- The written form of an expression: its source with the opener and the closing brace. -/
def written (source : List Char) : String :=
  String.ofList (opener ++ source ++ ['\x7d'])

/-- Where the scan of a template stands: in plain text or in an expression, which may stand inside a
quoted string.  The units of the current piece are held backwards. -/
inductive Scan where
  | inPlain (held : List Char)
  | inExpression (quote : Option Char) (held : List Char)
deriving DecidableEq, Repr

/-- An expression that is not closed. -/
def unclosed (held : List Char) : EvalError :=
  .unsupported (String.ofList (opener ++ held.reverse)) .unterminatedExpression

/-- Divides the rest of a template into segments. -/
def scan : Scan → List Char → Except EvalError (List Segment)
  | .inPlain held, [] => .ok (plainOf held)
  | .inExpression _ held, [] => .error (unclosed held)
  | .inPlain held, '$' :: '\x7b' :: cs => do
    let rest ← scan (.inExpression none []) cs
    pure (plainOf held ++ rest)
  | .inPlain held, c :: cs => scan (.inPlain (c :: held)) cs
  | .inExpression none held, c :: cs =>
    if c = '\x7d' then do
      let parsed ← Expression.read (String.ofList held.reverse)
      let rest ← scan (.inPlain []) cs
      pure (.expression (written held.reverse) parsed :: rest)
    else if c = '\x27' ∨ c = '\x22' then scan (.inExpression (some c) (c :: held)) cs
    else scan (.inExpression none (c :: held)) cs
  | .inExpression (some quote) held, '\\' :: c :: cs =>
    scan (.inExpression (some quote) (c :: '\\' :: held)) cs
  | .inExpression (some quote) held, c :: cs =>
    if c = quote then scan (.inExpression none (c :: held)) cs
    else scan (.inExpression (some quote) (c :: held)) cs

/-- The segments of a template. -/
def read (text : String) : Except EvalError (List Segment) :=
  scan (.inPlain []) text.toList

end Template
end WorkflowDag
