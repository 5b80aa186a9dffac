import WorkflowDag.Text.Cut

/-!
# Shell words

Words and commands as a shell reads them.  A value that holds only harmless units is written bare;
any other stands in single quotes, so a shell sees each value as one word or as one part of a word.
-/

namespace WorkflowDag
namespace Shell

/-- A unit that means nothing to a shell. -/
def isSafe (c : Char) : Bool :=
  c.isAlphanum || "_@%+=:,./-".toList.contains c

/-- How a single quote is written inside single quotes: the quotes are closed for it. -/
def escapedQuote : List Char := ['\x27', '\\', '\x27', '\x27']

/-- The units of a text as they stand between single quotes. -/
def escapeUnits (cs : List Char) : List Char :=
  cs.flatMap fun c => if c = '\x27' then escapedQuote else [c]

/-- The text as it stands between single quotes. -/
def escape (s : String) : String :=
  String.ofList (escapeUnits s.toList)

/-- The text as one word. -/
def quote (s : String) : String :=
  if s.toList ≠ [] ∧ s.toList.all isSafe then s else "'" ++ escape s ++ "'"

/-- A word of a command: a fixed one, a value, or a flag with its value. -/
inductive Word where
  | fixed (text : String)
  | value (text : String)
  | flag (name text : String)
deriving DecidableEq, Repr

namespace Word

/-- The word as it is written. -/
def write : Word → String
  | fixed text => text
  | value text => quote text
  | flag name text => "--" ++ name ++ "=" ++ quote text

end Word

/-- A simple command. -/
abbrev Command := List Word

namespace Command

/-- The command as it is written: its words with a space between neighbours. -/
def write (c : Command) : String :=
  Text.joinWith " " (c.map Word.write)

end Command

/-- Commands that run one after the other as long as they succeed. -/
def writeSequence (commands : List Command) : String :=
  Text.joinWith " && " (commands.map Command.write)

end Shell
end WorkflowDag
