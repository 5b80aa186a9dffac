import WorkflowDag.Number.Reading
import WorkflowDag.Record

/-!
# Option values

Values of command-line options that are more than plain text: configuration entries and numbers of
days.
-/

namespace WorkflowDag

/-- What is wrong with the value of an option. -/
inductive ValueFault where
  | noEntry (value : String)
  | noDays
deriving DecidableEq, Repr

/-- The fault in words. -/
def ValueFault.message : ValueFault → String
  | noEntry value => "expected key=value, got \"" ++ value ++ "\""
  | noDays => "expected a whole number of days"

/-- Adds the entry `key=value` to a record; the key is not empty. -/
def readParam (previous : Record) (value : String) : Except ValueFault Record :=
  match Text.cut? ['='] value.toList with
  | some (key, rest) =>
    if key = [] then .error (.noEntry value)
    else .ok (previous.insert (String.ofList key) (String.ofList rest))
  | none => .error (.noEntry value)

/-- Adds entries one after the other. -/
def readParams (previous : Record) : List String → Except ValueFault Record
  | [] => .ok previous
  | value :: rest => do
    let next ← readParam previous value
    readParams next rest

/-- Reads a number of days. -/
def readDays (value : String) : Except ValueFault Number :=
  match Number.read? value with
  | some n => if n.isInteger && !n.isNegative then .ok n else .error .noDays
  | none => .error .noDays

end WorkflowDag
