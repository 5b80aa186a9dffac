import WorkflowDag.Json.Reading
import WorkflowDag.Settings.Basic

/-!
# Reading settings

Settings are written as a JSON object.  Reading one checks every value and reports all problems: for
each object first the names it does not know, then the values in a fixed order.
-/

namespace WorkflowDag

/-- A value, or all the problems that stand in its way. -/
inductive Checked (α : Type) where
  | valid (value : α)
  | invalid (problems : List ConfigurationProblem)

namespace Checked

/-- The problems found. -/
def problems {α : Type} : Checked α → List ConfigurationProblem
  | valid _ => []
  | invalid problems => problems

/-- Applies a checked function; the problems of both sides are reported. -/
def ap {α β : Type} (f : Checked (α → β)) (x : Checked α) : Checked β :=
  match f, x with
  | valid g, valid a => valid (g a)
  | f, x => invalid (f.problems ++ x.problems)

/-- The value after a check that gives none. -/
def after {α : Type} (check : List ConfigurationProblem) (x : Checked α) : Checked α :=
  match check, x with
  | [], x => x
  | problems, x => invalid (problems ++ x.problems)

/-- Applies a function to the value. -/
def map {α β : Type} (f : α → β) : Checked α → Checked β
  | valid a => valid (f a)
  | invalid problems => invalid problems

end Checked

namespace Settings

/-- A problem with the value at a path. -/
def fault {α : Type} (path : String) (f : SettingFault) : Checked α :=
  .invalid [.setting path f]

/-- A name as it stands in a path. -/
def escapeName (name : String) : String :=
  String.ofList (name.toList.flatMap fun c =>
    if c = '~' then ['~', '0'] else if c = '/' then ['~', '1'] else [c])

/-- The path of an entry. -/
def childPath (path name : String) : String :=
  path ++ "/" ++ escapeName name

/-- Reads any text. -/
def readText (path : String) : Json → Checked String
  | .string s => .valid s
  | _ => fault path .expectedString

/-- Reads a text that is not empty. -/
def readName (path : String) : Json → Checked String
  | .string s => if s = "" then fault path .expectedLength else .valid s
  | _ => fault path .expectedString

/-- Reads a number of days. -/
def readDays (path : String) : Json → Checked Number
  | .number n =>
    if !n.isInteger then fault path .expectedInteger
    else if n.isNegative then fault path .expectedNonNegative
    else .valid n
  | _ => fault path .expectedInteger

/-- Reads a truth value. -/
def readBool (path : String) : Json → Checked Bool
  | .bool b => .valid b
  | _ => fault path .expectedBoolean

/-- Reads what to do with names that are not defined. -/
def readUnresolved (path : String) : Json → Checked Unresolved
  | .string s =>
    if s = "error" then .valid .error
    else if s = "defer" then .valid .defer
    else fault path .expectedChoice
  | _ => fault path .expectedChoice

/-- Reads the texts of a list from position `n` on. -/
def readItems (path : String) : Nat → List Json → Checked (List String)
  | _, [] => .valid []
  | n, item :: rest =>
    ((readText (childPath path (Text.decimal n)) item).map List.cons).ap
      (readItems path (n + 1) rest)

/-- Reads a list of texts. -/
def readTexts (path : String) : Json → Checked (List String)
  | .array items => readItems path 0 items
  | _ => fault path .expectedArray

/-- Reads texts by name, one after the other. -/
def readRecordEntries (path : String) : List (String × Json) → Checked (List (String × String))
  | [] => .valid []
  | (name, value) :: rest =>
    ((readText (childPath path name) value).map fun text => List.cons (name, text)).ap
      (readRecordEntries path rest)

/-- Reads texts by name. -/
def readRecord (path : String) : Json → Checked Record
  | .object entries => (readRecordEntries path entries).map fun read => ⟨read⟩
  | _ => fault path .expectedObject

/-- Reads an entry of an object, if it is there. -/
def optional {α : Type} (path : String) (entries : List (String × Json)) (name : String)
    (read : String → Json → Checked α) : Checked (Option α) :=
  match Json.lookup? entries name with
  | some value => (read (childPath path name) value).map some
  | none => .valid none

/-- Reads an entry of an object, or takes the default. -/
def withDefault {α : Type} (path : String) (entries : List (String × Json)) (name : String)
    (read : String → Json → Checked α) (default : α) : Checked α :=
  (optional path entries name read).map fun found => found.getD default

/-- The names of an object that it should not have. -/
def unexpected (path : String) (entries : List (String × Json)) (known : List String) :
    List ConfigurationProblem :=
  (entries.filter fun entry => !known.contains entry.1).map fun entry =>
    .setting (childPath path entry.1) .unexpectedProperty

/-- The entries of a section.  A section that is not an object counts as empty. -/
def sectionOf (entries : List (String × Json)) (name : String) : List (String × Json) :=
  ((Json.lookup? entries name).map Json.entriesOf).getD []

/-- Reads the section about the cluster. -/
def readTarget (entries : List (String × Json)) : Checked Target :=
  Checked.after (unexpected "/dataproc" entries ["cluster", "region"])
    (((withDefault "/dataproc" entries "cluster" readName ({} : Target).cluster).map Target.mk).ap
      (withDefault "/dataproc" entries "region" readName ({} : Target).region))

/-- Reads the section about expressions. -/
def readExpressions (entries : List (String × Json)) : Checked Unresolved :=
  Checked.after (unexpected "/el" entries ["unresolved"])
    (withDefault "/el" entries "unresolved" readUnresolved .error)

/-- Reads the section about assets. -/
def readAssets (entries : List (String × Json)) : Checked (List String) :=
  Checked.after (unexpected "/assets" entries ["exclude"])
    (withDefault "/assets" entries "exclude" readTexts [])

/-- The names that settings know. -/
def knownNames : List String :=
  ["dagName", "user", "startDaysAgo", "scheduleIntervalDays", "dataproc", "el", "strictDecisions",
    "assets", "properties"]

/-- Reads the entries of settings. -/
def readEntries (entries : List (String × Json)) : Checked Settings :=
  Checked.after (unexpected "" entries knownNames)
    ((((((((((optional "" entries "dagName" readName).map Settings.mk).ap
      (optional "" entries "user" readName)).ap
      (withDefault "" entries "startDaysAgo" readDays .zero)).ap
      (withDefault "" entries "scheduleIntervalDays" readDays .zero)).ap
      (readTarget (sectionOf entries "dataproc"))).ap
      (readExpressions (sectionOf entries "el"))).ap
      (withDefault "" entries "strictDecisions" readBool false)).ap
      (readAssets (sectionOf entries "assets"))).ap
      (withDefault "" entries "properties" readRecord .empty))

/-- The settings that a value gives; `null` stands for the defaults. -/
def ofJson (source : String) : Json → Except Error Settings
  | .null => .ok {}
  | .object entries =>
    match readEntries entries with
    | .valid settings => .ok settings
    | .invalid problems => .error (.configuration source problems)
  | _ => .error (.configuration source [.notAnObject])

/-- Reads settings from JSON text. -/
def read (text source : String) : Except Error Settings :=
  match Json.read? text with
  | some value => ofJson source value
  | none => .error (.configuration source [.invalidJson])

end Settings
end WorkflowDag
