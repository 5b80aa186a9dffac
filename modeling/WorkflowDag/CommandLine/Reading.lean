import WorkflowDag.CommandLine.Help
import WorkflowDag.CommandLine.Option
import WorkflowDag.CommandLine.Suggestion
import WorkflowDag.Text.Blank

/-!
# Reading the command line

Arguments are read in two rounds.  The first, for the program, knows only the option that asks for
the version and divides the arguments into operands and the rest, which starts at the first option
it does not know.  The second, for a conversion, reads the options in that rest.
-/

namespace WorkflowDag
namespace CommandLine

/-- What a run of the program shows, and the code with which it ends. -/
structure Response where
  code : Nat
  output : List String := []
  errors : List String := []
deriving DecidableEq, Repr

/-- A text as it is shown, without blanks at its end. -/
def shown (text : String) : String :=
  String.ofList (Text.trimEndUnits text.toList)

/-- Shows a text and ends well. -/
def Response.show (text : String) : Response :=
  { code := 0, output := [shown text] }

/-- Reports a problem and ends with a failure. -/
def Response.fail (text : String) : Response :=
  { code := 1, errors := [shown text] }

/-- What is asked for: an answer at once, or a conversion. -/
inductive Request where
  | respond (response : Response)
  | convert (input output : String) (options : Arguments)
deriving Repr

/-- The argument looks like an option. -/
def looksLikeOption (argument : String) : Bool :=
  match argument.toList with
  | '-' :: _ :: _ => true
  | _ => false

/-- The argument asks for the version, alone or with more units behind the short name. -/
def asksForVersion (argument : String) : Bool :=
  argument == "--version" || Text.startsWith ['-', 'V'] argument.toList

/-- Arguments divided into operands and what follows the first unknown option. -/
structure Divided where
  operands : List String := []
  rest : List String := []
deriving DecidableEq, Repr

namespace Divided

/-- Puts an argument in front. -/
def cons (behindUnknown : Bool) (argument : String) (d : Divided) : Divided :=
  if behindUnknown then { d with rest := argument :: d.rest }
  else { d with operands := argument :: d.operands }

end Divided

/-- Divides the arguments of the program; there is none when the version is asked for. -/
def divide? : Bool → List String → Option Divided
  | _, [] => some {}
  | behindUnknown, argument :: arguments =>
    if argument = "--" then
      some (if behindUnknown then { rest := argument :: arguments } else { operands := arguments })
    else if asksForVersion argument then none
    else
      let behind := behindUnknown || looksLikeOption argument
      (divide? behind arguments).map (Divided.cons behind argument)

/-- The long names that an unknown option of the program may have meant. -/
def programOptionNames : List String := ["--version", "--help"]

/-- The long names that an unknown option of a conversion may have meant. -/
def convertOptionNames : List String :=
  ConvertOption.all.map ConvertOption.long ++ ["--help"] ++ programOptionNames

/-- The response to an unknown option. -/
def unknownOption (candidates : List String) (argument : String) : Response :=
  .fail ("error: unknown option '" ++ argument ++ "'" ++ suggestOption argument candidates)

/-- The argument asks for help. -/
def asksForHelp (argument : String) : Bool :=
  argument == "-h" || argument == "--help"

/-- The option that an argument names, with the value that the argument holds, if any. -/
def optionIn? (argument : String) : Option (ConvertOption × Option String) :=
  match ConvertOption.ofName? argument with
  | some option => some (option, none)
  | none =>
    let units := argument.toList
    let short := ConvertOption.ofName? (String.ofList (units.take 2))
    if 2 < units.length && (units.drop 1).head? != some '-' && looksLikeOption argument &&
        short.isSome then
      short.map fun option => (option, some (String.ofList (units.drop 2)))
    else
      match Text.cut? ['='] units with
      | some (name, value) =>
        match ConvertOption.ofName? (String.ofList name) with
        | some option =>
          if option.takesValue && Text.startsWith ['-', '-'] name then
            some (option, some (String.ofList value))
          else none
        | none => none
      | none => none

/-- Sets an option to a value. -/
def setOption (s : Arguments) (option : ConvertOption) (value : String) :
    Except Response Arguments :=
  (s.assign option value).mapError fun fault =>
    .fail ("error: option '" ++ option.flags ++ "' argument '" ++ value ++ "' is invalid. " ++
      fault.message)

/-- Reads the options of a conversion; the result also has the arguments from the first unknown
option on. -/
def readOptions :
    Arguments → Bool → List String → Except Response (Arguments × List String)
  | s, _, [] => .ok (s, [])
  | s, behindUnknown, argument :: arguments =>
    if argument = "--" then .ok (s, if behindUnknown then argument :: arguments else [])
    else
      match optionIn? argument with
      | some (option, some value) => do
        let s' ← setOption s option value
        readOptions s' behindUnknown arguments
      | some (option, none) =>
        if option.takesValue then
          match arguments with
          | value :: others => do
            let s' ← setOption s option value
            readOptions s' behindUnknown others
          | [] => .error (.fail ("error: option '" ++ option.flags ++ "' argument missing"))
        else do
          let s' ← setOption s option ""
          readOptions s' behindUnknown arguments
      | none => do
        let behind := behindUnknown || looksLikeOption argument
        let (s', unknown) ← readOptions s behind arguments
        pure (s', if behind then argument :: unknown else unknown)

/-- The response when an option that has to be there is missing. -/
def missingOption (option : ConvertOption) : Response :=
  .fail ("error: required option '" ++ option.flags ++ "' not specified")

/-- Reads a request for a conversion. -/
def readConvert (arguments : List String) : Request :=
  match readOptions {} false arguments with
  | .error response => .respond response
  | .ok (options, unknown) =>
    if unknown.any asksForHelp then .respond (.show convertHelp)
    else
      match options.input, options.output, unknown with
      | none, _, _ => .respond (missingOption .input)
      | _, none, _ => .respond (missingOption .output)
      | some _, some _, argument :: _ => .respond (unknownOption convertOptionNames argument)
      | some input, some output, [] => .convert input output options

/-- Reads a request for help about a command. -/
def readHelp (operands : List String) : Response :=
  match operands with
  | [] => .show programHelp
  | command :: _ =>
    if command = "" then .show programHelp
    else if command = "convert" then .show convertHelp
    else .fail programHelp

/-- Reads the arguments of the program. -/
def read (arguments : List String) : Request :=
  match divide? false arguments with
  | none => .respond (.show version)
  | some divided =>
    match divided.operands with
    | [] =>
      if divided.rest.any asksForHelp then .respond (.show programHelp)
      else
        match divided.rest with
        | [] => .respond (.fail programHelp)
        | argument :: _ => .respond (unknownOption programOptionNames argument)
    | command :: operands =>
      if command = "convert" then readConvert divided.rest
      else if command = "help" then .respond (readHelp operands)
      else if divided.rest.any asksForHelp then .respond (.show programHelp)
      else
        .respond (.fail ("error: unknown command '" ++ command ++ "'" ++
          suggestCommand command ["convert", "help"]))

end CommandLine
end WorkflowDag
