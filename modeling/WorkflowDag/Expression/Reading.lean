import WorkflowDag.Expression.Basic
import WorkflowDag.Expression.Token

/-!
# Reading expressions

    expression := operand (("eq" | "ne" | "==" | "!=") operand)?
    operand    := string | number | true | false | null
                | name "(" [expression ("," expression)*] ")"
                | name
                | "(" expression ")"

The words `eq` and `ne` act as comparisons wherever they follow an operand, also when quoted.
-/

namespace WorkflowDag
namespace Expression

/-- The comparison that a token stands for behind an operand. -/
def comparison? : Token → Option Comparison
  | .equal => some .eq
  | .unequal => some .ne
  | .string value | .number value | .name value =>
    if value = "eq" then some .eq else if value = "ne" then some .ne else none
  | _ => none

/-- Takes the closing parenthesis; `fault` tells what is wrong with another token. -/
def takeClose (fault : ExpressionFault) : List Token → Except ExpressionFault (List Token)
  | [] => .error .unexpectedEnd
  | .closing :: rest => .ok rest
  | _ :: _ => .error fault

mutual

/-- Reads an expression and leaves the tokens behind it.  Every two steps consume a token. -/
def expression : Nat → List Token → Except ExpressionFault (Expression × List Token)
  | 0, _ => .error .unexpectedEnd
  | steps + 1, tokens => do
    let (left, rest) ← operand steps tokens
    match rest with
    | [] => pure (left, [])
    | token :: rest' =>
      match comparison? token with
      | none => pure (left, rest)
      | some op =>
        let (right, rest'') ← operand steps rest'
        pure (compare op left right, rest'')

/-- Reads an operand. -/
def operand : Nat → List Token → Except ExpressionFault (Expression × List Token)
  | 0, _ => .error .unexpectedEnd
  | _ + 1, [] => .error .unexpectedEnd
  | steps + 1, token :: rest =>
    match token with
    | .string value => .ok (literal value, rest)
    | .number value => .ok (literal value, rest)
    | .opening => do
      let (inner, rest') ← expression steps rest
      let rest'' ← takeClose .missingClose rest'
      pure (inner, rest'')
    | .name value =>
      if value = "true" ∨ value = "false" then .ok (literal value, rest)
      else if value = "null" then .ok (literal "", rest)
      else
        match rest with
        | .opening :: .closing :: rest' => .ok (call value [], rest')
        | .opening :: rest' => do
          let (args, rest'') ← arguments steps rest'
          let rest''' ← takeClose (.missingCloseAfter value) rest''
          pure (call value args, rest''')
        | _ => .ok (reference value, rest)
    | other => .error (.unexpected other.text)

/-- Reads one or more arguments. -/
def arguments : Nat → List Token → Except ExpressionFault (List Expression × List Token)
  | 0, _ => .error .unexpectedEnd
  | steps + 1, tokens => do
    let (first, rest) ← expression steps tokens
    match rest with
    | .comma :: rest' =>
      let (others, rest'') ← arguments steps rest'
      pure (first :: others, rest'')
    | _ => pure ([first], rest)

end

/-- The expression that a list of tokens writes. -/
def ofTokens (tokens : List Token) : Except ExpressionFault Expression := do
  let (result, rest) ← expression (3 * tokens.length + 3) tokens
  match rest with
  | [] => pure result
  | token :: _ => .error (.trailing token.text)

/-- Reads an expression. -/
def read (source : String) : Except EvalError Expression :=
  let result := do
    let tokens ← Token.read source.toList
    ofTokens tokens
  result.mapError (.unsupported source)

end Expression
end WorkflowDag
