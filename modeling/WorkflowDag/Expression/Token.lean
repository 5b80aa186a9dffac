import WorkflowDag.Expression.Fault
import WorkflowDag.Text.Blank

/-!
# Tokens of expressions

An expression is written as quoted strings, numbers, names and punctuation; white space between them
is ignored.  A backslash inside a string takes the next unit as it is.
-/

namespace WorkflowDag

/-- A token. -/
inductive Token where
  | string (value : String)
  | number (value : String)
  | name (value : String)
  | opening
  | closing
  | comma
  | equal
  | unequal
deriving DecidableEq, Repr

namespace Token

/-- The text of a token; a string without its quotes. -/
def text : Token → String
  | string value => value
  | number value => value
  | name value => value
  | opening => "("
  | closing => ")"
  | comma => ","
  | equal => "=="
  | unequal => "!="

/-- A unit that begins a name. -/
def startsName (c : Char) : Bool :=
  c.isAlpha || c == '_'

/-- A unit that goes on a name. -/
def inName (c : Char) : Bool :=
  c.isAlphanum || c == '_' || c == '.' || c == ':' || c == '-'

/-- A unit that goes on a number. -/
def inNumber (c : Char) : Bool :=
  c.isDigit || c == '.'

/-- Where the scan stands: between tokens, or inside one whose units so far are held backwards. -/
inductive Scan where
  | between
  | inString (quote : Char) (held : List Char)
  | inNumber (held : List Char)
  | inName (held : List Char)
  | afterSign (sign : Char)
deriving DecidableEq, Repr

/-- The token a sign followed by an equals sign makes. -/
def ofSign (sign : Char) : Token :=
  if sign = '=' then equal else unequal

/-- What a unit between tokens begins: a whole token, the inside of one, or nothing. -/
def begin (c : Char) : Except ExpressionFault (List Token × Scan) :=
  if Text.isBlank c then .ok ([], .between)
  else if c = '\x27' ∨ c = '\x22' then .ok ([], .inString c [])
  else if c = '=' ∨ c = '!' then .ok ([], .afterSign c)
  else if c = '(' then .ok ([opening], .between)
  else if c = ')' then .ok ([closing], .between)
  else if c = ',' then .ok ([comma], .between)
  else if c.isDigit then .ok ([], .inNumber [c])
  else if startsName c then .ok ([], .inName [c])
  else .error (.unexpected (String.singleton c))

/-- Reads tokens, going on from where the scan stands. -/
def scan : Scan → List Char → Except ExpressionFault (List Token)
  | .between, [] => .ok []
  | .inString _ _, [] => .error .unterminatedString
  | .inNumber held, [] => .ok [number (String.ofList held.reverse)]
  | .inName held, [] => .ok [name (String.ofList held.reverse)]
  | .afterSign sign, [] => .error (.unexpected (String.singleton sign))
  | .between, c :: cs => do
    let (tokens, state) ← begin c
    let rest ← scan state cs
    pure (tokens ++ rest)
  | .inString quote held, c :: cs =>
    if c = quote then do
      let rest ← scan .between cs
      pure (string (String.ofList held.reverse) :: rest)
    else if c = '\\' then
      match cs with
      | d :: cs' => scan (.inString quote (d :: held)) cs'
      | [] => .error .unterminatedString
    else scan (.inString quote (c :: held)) cs
  | .inNumber held, c :: cs =>
    if inNumber c then scan (.inNumber (c :: held)) cs
    else do
      let (tokens, state) ← begin c
      let rest ← scan state cs
      pure (number (String.ofList held.reverse) :: tokens ++ rest)
  | .inName held, c :: cs =>
    if inName c then scan (.inName (c :: held)) cs
    else do
      let (tokens, state) ← begin c
      let rest ← scan state cs
      pure (name (String.ofList held.reverse) :: tokens ++ rest)
  | .afterSign sign, c :: cs =>
    if c = '=' then do
      let rest ← scan .between cs
      pure (ofSign sign :: rest)
    else .error (.unexpected (String.singleton sign))

/-- The tokens of a text. -/
def read (source : List Char) : Except ExpressionFault (List Token) :=
  scan .between source

end Token
end WorkflowDag
