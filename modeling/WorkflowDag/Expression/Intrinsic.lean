import WorkflowDag.Record

/-!
# Built-in members

Every mapping of variables answers a few names of its own when no entry has them.  Such a built-in
member is no text: it equals only itself, it shows a fixed text where text is needed, and few
functions can do anything with it.
-/

namespace WorkflowDag

/-- A built-in member. -/
inductive Intrinsic where
  | maker
  | owns
  | precedes
  | lists
  | localText
  | plainText
  | content
  | setReader
  | setWriter
  | findReader
  | findWriter
  | base
deriving DecidableEq, Repr

namespace Intrinsic

/-- All built-in members. -/
def all : List Intrinsic :=
  [maker, owns, precedes, lists, localText, plainText, content, setReader, setWriter, findReader,
    findWriter, base]

/-- The name under which a member is found. -/
def name : Intrinsic → String
  | maker => "constructor"
  | owns => "hasOwnProperty"
  | precedes => "isPrototypeOf"
  | lists => "propertyIsEnumerable"
  | localText => "toLocaleString"
  | plainText => "toString"
  | content => "valueOf"
  | setReader => "__defineGetter__"
  | setWriter => "__defineSetter__"
  | findReader => "__lookupGetter__"
  | findWriter => "__lookupSetter__"
  | base => "__proto__"

/-- The member of a name. -/
def ofName? (s : String) : Option Intrinsic :=
  all.find? fun member => member.name == s

/-- The text a member shows. -/
def text : Intrinsic → String
  | base => "[object Object]"
  | maker => "function Object() \x7b [native code] \x7d"
  | member => "function " ++ member.name ++ "() \x7b [native code] \x7d"

/-- What a member writes in place of a match: a fixed text, the match itself, or nothing at all
because it cannot write. -/
inductive Replacer where
  | fixed (text : String)
  | same
  | none
deriving DecidableEq, Repr

/-- How a member acts as a replacement. -/
def replacer : Intrinsic → Replacer
  | base => .fixed "[object Object]"
  | plainText => .fixed "[object Undefined]"
  | precedes => .fixed "false"
  | maker => .same
  | _ => .none

end Intrinsic

/-- What an expression evaluates to: a text or a built-in member. -/
inductive Value where
  | text (content : String)
  | member (intrinsic : Intrinsic)
deriving DecidableEq, Repr

namespace Value

/-- The text that a value shows. -/
def shown : Value → String
  | text content => content
  | member intrinsic => intrinsic.text

end Value
end WorkflowDag
