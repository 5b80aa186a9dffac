import WorkflowDag.Text.Units
import WorkflowDag.Text.Blank

/-!
# Search patterns

The tree of a search pattern over units.  Choice is ordered and repetition is greedy or lazy, so a
pattern has at most one match at a place: the first one found in that order.
-/

namespace WorkflowDag

/-- One member of a character class. -/
inductive ClassItem where
  | range (low high : Nat)
  | digit (negated : Bool)
  | word (negated : Bool)
  | space (negated : Bool)
deriving DecidableEq, Repr

/-- A search pattern. -/
inductive Pattern where
  /-- The empty text. -/
  | empty
  /-- One given unit. -/
  | char (unit : Nat)
  /-- Any unit that ends no line. -/
  | dot
  /-- One unit inside or outside a class. -/
  | oneOf (negated : Bool) (items : List ClassItem)
  /-- The start of the text. -/
  | atStart
  /-- The end of the text. -/
  | atEnd
  /-- A place between a word unit and another, or any other place. -/
  | boundary (negated : Bool)
  /-- The text that a group has captured, or nothing when it has captured none. -/
  | backref (group : Nat)
  /-- A group that captures what it matches. -/
  | capture (group : Nat) (body : Pattern)
  /-- A condition on what follows (`behind = false`) or precedes. -/
  | look (behind negated : Bool) (body : Pattern)
  /-- One pattern after the other. -/
  | seq (first second : Pattern)
  /-- The first pattern, or else the second. -/
  | alt (first second : Pattern)
  /-- Repetition.  `firstGroup` and `groupCount` name the groups inside, which each round forgets.
  -/
  | many (least : Nat) (most : Option Nat) (greedy : Bool) (firstGroup groupCount : Nat)
      (body : Pattern)
deriving DecidableEq, Repr

namespace Pattern

/-- Letters, digits and the underscore. -/
def isWord (c : Char) : Bool :=
  c.isAlphanum || c == '_'

end Pattern

namespace ClassItem

/-- The unit belongs to the class item. -/
def holds (item : ClassItem) (c : Char) : Bool :=
  match item with
  | range low high => decide (low ≤ Text.unit c) && decide (Text.unit c ≤ high)
  | digit negated => c.isDigit != negated
  | word negated => Pattern.isWord c != negated
  | space negated => Text.isBlank c != negated

end ClassItem

namespace Pattern

/-- The pattern can match the empty text only. -/
def onlyEmpty : Pattern → Bool
  | empty | atStart | atEnd | boundary _ | look _ _ _ => true
  | char _ | dot | oneOf _ _ | backref _ => false
  | capture _ body => body.onlyEmpty
  | seq first second => first.onlyEmpty && second.onlyEmpty
  | alt first second => first.onlyEmpty && second.onlyEmpty
  | many _ most _ _ _ body => body.onlyEmpty || most == some 0

/-- The patterns one after the other. -/
def sequence : List Pattern → Pattern
  | [] => empty
  | [p] => p
  | p :: rest => seq p (sequence rest)

/-- The first of the patterns that matches. -/
def choice : List Pattern → Pattern
  | [] => empty
  | [p] => p
  | p :: rest => alt p (choice rest)

end Pattern

/-- A compiled search pattern: its tree, the number of its groups and the names of some of them. -/
structure SearchPattern where
  tree : Pattern
  groups : Nat
  names : List (String × Nat)
deriving Repr

end WorkflowDag
