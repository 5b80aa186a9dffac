import WorkflowDag.Json.Basic
import WorkflowDag.Number.Reading

/-!
# Reading JSON

A reader for JSON documents.  It takes exactly one value with white space around it; the white space
of JSON is space, tab, line feed and carriage return.
-/

namespace WorkflowDag
namespace Json

/-- A unit that may stand between the parts of a document. -/
def isSpace (c : Char) : Bool :=
  c == ' ' || c == '\t' || c == '\n' || c == '\r'

/-- Drops the space at the front. -/
def skipSpace (cs : List Char) : List Char :=
  cs.dropWhile isSpace

/-- The number of four hexadecimal digits. -/
def hexNumber? (digits : List Char) : Option Nat :=
  if digits.length = 4 ∧ digits.all (Number.isDigitOf 16) then some (Number.digitsValue 16 digits)
  else none

/-- What a backslash and one more unit stand for in a string. -/
def escaped? (c : Char) : Option Char :=
  if c = '\x22' ∨ c = '\\' ∨ c = '/' then some c
  else if c = 'b' then some '\x08'
  else if c = 'f' then some '\x0c'
  else if c = 'n' then some '\n'
  else if c = 'r' then some '\r'
  else if c = 't' then some '\t'
  else none

/-- Reads a string up to its closing quote. -/
def readString : List Char → Option (List Char × List Char)
  | [] => none
  | '\x22' :: rest => some ([], rest)
  | '\\' :: 'u' :: a :: b :: c :: d :: rest => do
    let n ← hexNumber? [a, b, c, d]
    let (units, after) ← readString rest
    pure (Text.ofUnit n :: units, after)
  | '\\' :: c :: rest => do
    let unit ← escaped? c
    let (units, after) ← readString rest
    pure (unit :: units, after)
  | c :: rest =>
    if c = '\\' ∨ c.toNat < 0x20 then none
    else (readString rest).map fun (units, after) => (c :: units, after)

/-- Takes the digits at the front. -/
def takeDigits (cs : List Char) : List Char × List Char :=
  (cs.takeWhile Char.isDigit, cs.dropWhile Char.isDigit)

/-- Reads the whole part of a number, which has no leading zero. -/
def readWhole : List Char → Option (List Char × List Char)
  | '0' :: rest => some (['0'], rest)
  | cs => if (takeDigits cs).1.isEmpty then none else some (takeDigits cs)

/-- Reads the fraction of a number, if there is one. -/
def readFraction : List Char → Option (List Char × List Char)
  | '.' :: rest => if (takeDigits rest).1.isEmpty then none else some (takeDigits rest)
  | cs => some ([], cs)

/-- Reads the digits of an exponent. -/
def readExponentDigits (negative : Bool) (cs : List Char) : Option (Int × List Char) :=
  let (digits, rest) := takeDigits cs
  if digits.isEmpty then none
  else
    let value : Int := Number.digitsValue 10 digits
    some (if negative then -value else value, rest)

/-- Reads the exponent of a number, if there is one. -/
def readExponent : List Char → Option (Int × List Char)
  | [] => some (0, [])
  | e :: rest =>
    if e = 'e' ∨ e = 'E' then
      match rest with
      | '-' :: digits => readExponentDigits true digits
      | '+' :: digits => readExponentDigits false digits
      | digits => readExponentDigits false digits
    else some (0, e :: rest)

/-- Reads a number without its sign. -/
def readUnsigned (negative : Bool) (cs : List Char) : Option (Json × List Char) := do
  let (whole, afterWhole) ← readWhole cs
  let (fraction, afterFraction) ← readFraction afterWhole
  let (exponent, rest) ← readExponent afterFraction
  pure (.number (Number.DecimalParts.value negative ⟨whole, fraction, exponent⟩), rest)

/-- Reads a number. -/
def readNumber : List Char → Option (Json × List Char)
  | '-' :: rest => readUnsigned true rest
  | cs => readUnsigned false cs

/-- Reads a value that is a single word. -/
def readWord? (cs : List Char) : Option (Json × List Char) :=
  match Text.after? "null".toList cs with
  | some rest => some (.null, rest)
  | none =>
    match Text.after? "true".toList cs with
    | some rest => some (.bool true, rest)
    | none => (Text.after? "false".toList cs).map fun rest => (.bool false, rest)

mutual

/-- Reads a value.  Each step consumes at least one unit. -/
def readValue : Nat → List Char → Option (Json × List Char)
  | 0, _ => none
  | steps + 1, cs =>
    match skipSpace cs with
    | [] => none
    | '\x22' :: rest => (readString rest).map fun (units, after) =>
        (.string (String.ofList units), after)
    | '[' :: rest =>
      match skipSpace rest with
      | ']' :: after => some (.array [], after)
      | items => (readItems steps items).map fun (values, after) => (.array values, after)
    | '\x7b' :: rest =>
      match skipSpace rest with
      | '\x7d' :: after => some (.object [], after)
      | entries => (readEntries steps [] entries).map fun (values, after) => (.object values, after)
    | c :: rest =>
      match readWord? (c :: rest) with
      | some found => some found
      | none => readNumber (c :: rest)

/-- Reads the items of an array up to its end. -/
def readItems : Nat → List Char → Option (List Json × List Char)
  | 0, _ => none
  | steps + 1, cs => do
    let (item, rest) ← readValue steps cs
    match skipSpace rest with
    | ']' :: after => pure ([item], after)
    | ',' :: more => do
      let (items, after) ← readItems steps more
      pure (item :: items, after)
    | _ => none

/-- Reads the entries of an object up to its end, behind those read before. -/
def readEntries : Nat → List (String × Json) → List Char → Option (List (String × Json) × List Char)
  | 0, _, _ => none
  | steps + 1, before, cs =>
    match skipSpace cs with
    | '\x22' :: opened => do
      let (name, afterName) ← readString opened
      match skipSpace afterName with
      | ':' :: written => do
        let (value, rest) ← readValue steps written
        let entries := Record.insertEntry before (String.ofList name) value
        match skipSpace rest with
        | '\x7d' :: after => pure (entries, after)
        | ',' :: more => readEntries steps entries more
        | _ => none
      | _ => none
    | _ => none

end

/-- The value of a document. -/
def read? (source : String) : Option Json :=
  match readValue (source.length + 1) source.toList with
  | some (value, rest) => if (skipSpace rest).isEmpty then some value else none
  | none => none

end Json
end WorkflowDag
