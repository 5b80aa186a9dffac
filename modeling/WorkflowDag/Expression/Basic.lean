import WorkflowDag.Text.Cut

/-!
# Expressions

The expressions that stand between `${` and `}` in workflow texts: quoted literals, variables,
function calls and one comparison.  `write` is the canonical written form.
-/

namespace WorkflowDag

/-- The two comparisons. -/
inductive Comparison where
  | eq
  | ne
deriving DecidableEq, Repr

/-- An expression. -/
inductive Expression where
  | literal (value : String)
  | reference (name : String)
  | call (name : String) (arguments : List Expression)
  | compare (op : Comparison) (left right : Expression)
deriving Repr

namespace Comparison

/-- The word of a comparison. -/
def word : Comparison → String
  | eq => "eq"
  | ne => "ne"

end Comparison

namespace Expression

/-- A literal in single quotes, with a backslash before each quote and backslash. -/
def quoteUnits : List Char → List Char
  | [] => []
  | c :: cs =>
    if c = '\\' ∨ c = '\x27' then '\\' :: c :: quoteUnits cs else c :: quoteUnits cs

/-- Puts a comparison into parentheses. -/
def embrace (e : Expression) (written : String) : String :=
  match e with
  | compare _ _ _ => "(" ++ written ++ ")"
  | _ => written

mutual

/-- Written form of an expression. -/
def write : Expression → String
  | literal value => "\x27" ++ String.ofList (quoteUnits value.toList) ++ "\x27"
  | reference name => name
  | call name arguments => name ++ "(" ++ writeAll arguments ++ ")"
  | compare op left right =>
    embrace left (write left) ++ " " ++ op.word ++ " " ++ embrace right (write right)

/-- Written form of a list of arguments. -/
def writeAll : List Expression → String
  | [] => ""
  | [e] => write e
  | e :: rest => write e ++ ", " ++ writeAll rest

end

end Expression
end WorkflowDag
