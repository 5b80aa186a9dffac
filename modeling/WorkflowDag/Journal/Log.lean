import WorkflowDag.Text.Cut

/-!
# Log lines

A log line names its scope and carries a message.  A logger lets through the messages up to its
level and may paint scope and message with terminal colours.
-/

namespace WorkflowDag

/-- How much is logged, from nothing to everything. -/
inductive Level where
  | silent
  | error
  | warn
  | info
  | debug
deriving DecidableEq, Repr

namespace Level

/-- All levels, from the least to the most talkative. -/
def all : List Level := [silent, error, warn, info, debug]

/-- The word for a level. -/
def word : Level → String
  | silent => "silent"
  | error => "error"
  | warn => "warn"
  | info => "info"
  | debug => "debug"

/-- The level of a word. -/
def ofWord? (s : String) : Option Level :=
  all.find? fun level => level.word == s

/-- Rank of a level. -/
def rank : Level → Nat
  | silent => 0
  | error => 1
  | warn => 2
  | info => 3
  | debug => 4

end Level

/-- A terminal colour: the codes that switch it on and off. -/
structure Paint where
  on : String
  off : String
deriving DecidableEq, Repr

namespace Paint

/-- A terminal control sequence with one number. -/
def code (n : String) : String :=
  String.ofList (Char.ofNat 27 :: '[' :: n.toList ++ ['m'])

/-- Cyan, for scopes. -/
def cyan : Paint := ⟨code "36", code "39"⟩

/-- Yellow, for warnings. -/
def yellow : Paint := ⟨code "33", code "39"⟩

/-- Red, for errors. -/
def red : Paint := ⟨code "31", code "39"⟩

/-- Dimmed, for details. -/
def dim : Paint := ⟨code "2", code "22"⟩

/-- Switches the colour on again wherever the text switches it off.  Each step consumes a unit. -/
def reopen (p : Paint) : Nat → List Char → List Char
  | 0, cs => cs
  | _ + 1, [] => []
  | steps + 1, c :: cs =>
    match Text.after? p.off.toList (c :: cs) with
    | some rest => p.off.toList ++ p.on.toList ++ p.reopen steps rest
    | none => c :: p.reopen steps cs

/-- Switches the colour off before each line break and on again behind it. -/
def aroundBreaks (p : Paint) : List Char → List Char
  | [] => []
  | '\r' :: '\n' :: cs => p.off.toList ++ '\r' :: '\n' :: p.on.toList ++ p.aroundBreaks cs
  | '\n' :: cs => p.off.toList ++ '\n' :: p.on.toList ++ p.aroundBreaks cs
  | c :: cs => c :: p.aroundBreaks cs

/-- A text in a colour; no text stays as it is. -/
def apply (p : Paint) (s : String) : String :=
  if s = "" then s
  else
    p.on ++ String.ofList (p.aroundBreaks (p.reopen s.length s.toList)) ++ p.off

end Paint

/-- A logger: its scope, its level and whether it paints. -/
structure Logger where
  scope : String
  level : Level := .info
  color : Bool := false
deriving DecidableEq, Repr

namespace Logger

/-- The logger of a scope inside the scope of `l`. -/
def child (l : Logger) (scope : String) : Logger :=
  { l with scope := l.scope ++ ":" ++ scope }

/-- The colour of messages of a level. -/
def messagePaint : Level → Option Paint
  | .debug => some .dim
  | .warn => some .yellow
  | .error => some .red
  | _ => none

/-- The lines that logging a message writes: one, or none beyond the level of the logger. -/
def lines (l : Logger) (level : Level) (message : String) : List String :=
  if l.level.rank < level.rank then []
  else
    let scope := "[" ++ l.scope ++ "]"
    let painted := match messagePaint level with
      | some paint => paint.apply message
      | none => message
    if l.color then [Paint.cyan.apply scope ++ " " ++ painted] else [scope ++ " " ++ message]

end Logger
end WorkflowDag
