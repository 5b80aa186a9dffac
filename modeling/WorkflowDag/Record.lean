import WorkflowDag.Text.Units

/-!
# Records

A record maps names to texts and keeps an order.  Names that are indices, canonical decimal numbers
up to 4294967294, come first in ascending order; all other names follow in the order in which they
were first written.  Writing a name again keeps its place.
-/

namespace WorkflowDag

/-- The greatest number whose decimal text is an index. -/
def maxIndex : Nat := 4294967294

/-- Number of an index name: canonical decimal, at most `maxIndex`. -/
def indexOf? (name : String) : Option Nat :=
  let cs := name.toList
  let canonical : Bool :=
    match cs with
    | [] => false
    | [c] => c.isDigit
    | c :: rest => c.isDigit && c != '0' && rest.all Char.isDigit && decide (rest.length < 10)
  let value := cs.foldl (fun acc c => acc * 10 + (c.toNat - 48)) 0
  if canonical && decide (value ≤ maxIndex) then some value else none

namespace Record

/-- Writes a new value into the entry of a name. -/
def overwrite {α : Type} (name : String) (value : α) : List (String × α) → List (String × α)
  | [] => []
  | entry :: rest =>
    if entry.1 == name then (name, value) :: rest else entry :: overwrite name value rest

/-- Adds the entry of an index behind the smaller indices. -/
def addIndex {α : Type} (index : Nat) (name : String) (value : α) :
    List (String × α) → List (String × α)
  | [] => [(name, value)]
  | entry :: rest =>
    match indexOf? entry.1 with
    | some other =>
      if other < index then entry :: addIndex index name value rest
      else (name, value) :: entry :: rest
    | none => (name, value) :: entry :: rest

/-- Writes a value under a name, in record order. -/
def insertEntry {α : Type} (entries : List (String × α)) (name : String) (value : α) :
    List (String × α) :=
  if entries.any fun entry => entry.1 == name then overwrite name value entries
  else
    match indexOf? name with
    | some index => addIndex index name value entries
    | none => entries ++ [(name, value)]

end Record

/-- Texts by name, in record order. -/
structure Record where
  entries : List (String × String)
deriving DecidableEq, Repr

namespace Record

/-- The record without entries. -/
def empty : Record := ⟨[]⟩

/-- The text written under a name. -/
def get? (r : Record) (name : String) : Option String :=
  (r.entries.find? fun entry => entry.1 == name).map Prod.snd

/-- The name has an entry. -/
def has (r : Record) (name : String) : Bool :=
  r.entries.any fun entry => entry.1 == name

/-- The names in order. -/
def names (r : Record) : List String :=
  r.entries.map Prod.fst

/-- The number of entries. -/
def size (r : Record) : Nat :=
  r.entries.length

/-- Writes a text under a name. -/
def insert (r : Record) (name value : String) : Record :=
  ⟨insertEntry r.entries name value⟩

/-- The name that documents and property files cannot add: an entry of this name is changed only
where it already exists. -/
def reservedName : String := "__proto__"

/-- Writes a text under a name taken from a document or property file. -/
def assign (r : Record) (name value : String) : Record :=
  if name == reservedName && !r.has name then r else r.insert name value

/-- The entries of `s` written over those of `r`, in order. -/
def merge (r s : Record) : Record :=
  s.entries.foldl (fun acc entry => acc.insert entry.1 entry.2) r

/-- The record that writing the given entries in turn leaves. -/
def ofList (entries : List (String × String)) : Record :=
  entries.foldl (fun acc entry => acc.insert entry.1 entry.2) empty

/-- The names in ascending unit order. -/
def sortedNames (r : Record) : List String :=
  Text.sorted r.names

end Record
end WorkflowDag
