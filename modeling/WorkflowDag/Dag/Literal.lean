import WorkflowDag.Record
import WorkflowDag.Text.Cut

/-!
# Literals and calls

How texts, dictionaries and calls are written in a Python module.  A string literal is
double-quoted; quotes, backslashes, control characters and halves that stand alone are escaped in
it.
-/

namespace WorkflowDag
namespace Literal

/-- Four hexadecimal digits of a number. -/
def fourDigits (n : Nat) : List Char :=
  let digits := Nat.toDigits 16 n
  List.replicate (4 - digits.length) '0' ++ digits

/-- The escape of a unit by its number. -/
def numbered (c : Char) : List Char :=
  '\\' :: 'u' :: fourDigits (Text.unit c)

/-- A unit inside a literal. -/
def escapeUnit (c : Char) : List Char :=
  if c = '\x22' then ['\\', '\x22']
  else if c = '\\' then ['\\', '\\']
  else if c = '\x08' then ['\\', 'b']
  else if c = '\x0c' then ['\\', 'f']
  else if c = '\n' then ['\\', 'n']
  else if c = '\r' then ['\\', 'r']
  else if c = '\t' then ['\\', 't']
  else if c.toNat < 0x20 then numbered c
  else if Text.isHighHalf c || Text.isLowHalf c then numbered c
  else [c]

/-- The units inside a literal; two halves that belong together stay as they are. -/
def escapeUnits : List Char → List Char
  | [] => []
  | [c] => escapeUnit c
  | c :: d :: rest =>
    if Text.isHighHalf c && Text.isLowHalf d then c :: d :: escapeUnits rest
    else escapeUnit c ++ escapeUnits (d :: rest)

/-- A string literal. -/
def quote (s : String) : String :=
  "\"" ++ String.ofList (escapeUnits s.toList) ++ "\""

/-- One step of indentation. -/
def indentation : String := "    "

/-- A line of a dictionary. -/
def entryLine (indent : String) (r : Record) (name : String) : String :=
  indent ++ indentation ++ quote name ++ ": " ++ quote ((r.get? name).getD "") ++ ","

/-- A dictionary with sorted names, one entry on a line. -/
def dict (indent : String) (r : Record) : String :=
  if r.size = 0 then "\x7b\x7d"
  else
    Text.joinWith "\n"
      ("\x7b" :: r.sortedNames.map (entryLine indent r) ++ [indent ++ "\x7d"])

end Literal

/-- A call with named arguments, whose values are written already. -/
structure Call where
  callee : String
  arguments : List (String × String)
deriving DecidableEq, Repr

namespace Call

/-- The line of an argument. -/
def argumentLine (indent : String) (argument : String × String) : String :=
  indent ++ Literal.indentation ++ argument.1 ++ "=" ++ argument.2 ++ ","

/-- The call as it is written, one argument on a line. -/
def write (indent : String) (c : Call) : String :=
  Text.joinWith "\n"
    ((c.callee ++ "(") :: c.arguments.map (argumentLine indent) ++ [indent ++ ")"])

end Call
end WorkflowDag
