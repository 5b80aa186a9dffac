import WorkflowDag.Number.Basic
import WorkflowDag.Record

/-!
# JSON values

The values of a JSON document.  The entries of an object are in record order, and of a repeated name
the last value counts.
-/

namespace WorkflowDag

/-- A JSON value. -/
inductive Json where
  | null
  | bool (value : Bool)
  | number (value : Number)
  | string (value : String)
  | array (items : List Json)
  | object (entries : List (String × Json))
deriving Repr

namespace Json

/-- The value under a name among the entries of an object. -/
def lookup? (entries : List (String × Json)) (name : String) : Option Json :=
  (entries.find? fun entry => entry.1 == name).map Prod.snd

/-- The entries of an object; any other value has none. -/
def entriesOf : Json → List (String × Json)
  | object entries => entries
  | _ => []

end Json
end WorkflowDag
