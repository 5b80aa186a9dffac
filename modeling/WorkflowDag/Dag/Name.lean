import WorkflowDag.Dag.Rendering

/-!
# Names in a module

The imports of a module and the variables that hold its operators.  A variable is named after its
operator, unless the name is a keyword, a builtin or a name of the module itself.
-/

namespace WorkflowDag

/-- The modules that a DAG module may import. -/
inductive Import where
  | models
  | sshHook
  | sshOperator
  | bashOperator
  | dummyOperator
  | pythonOperator
  | dates
  | datetime
deriving DecidableEq, Repr

namespace Import

/-- All imports in the order in which a module lists them. -/
def all : List Import :=
  [models, sshHook, sshOperator, bashOperator, dummyOperator, pythonOperator, dates, datetime]

/-- The name that an import binds. -/
def name : Import → String
  | models => "models"
  | sshHook => "ssh_hook"
  | sshOperator => "ssh_operator"
  | bashOperator => "bash_operator"
  | dummyOperator => "dummy_operator"
  | pythonOperator => "python_operator"
  | dates => "dates"
  | datetime => "datetime"

/-- The package that holds the imported module, if any. -/
def package? : Import → Option String
  | models => some "airflow"
  | sshHook => some "airflow.contrib.hooks"
  | sshOperator => some "airflow.contrib.operators"
  | bashOperator => some "airflow.operators"
  | dummyOperator => some "airflow.operators"
  | pythonOperator => some "airflow.operators"
  | dates => some "airflow.utils"
  | datetime => none

/-- The line of an import. -/
def line (i : Import) : String :=
  match i.package? with
  | some package => "from " ++ package ++ " import " ++ i.name
  | none => "import " ++ i.name

end Import

/-- The imports that actions of a type need. -/
def ActionType.imports : ActionType → List Import
  | .ssh => [.sshHook, .sshOperator]
  | _ => [.bashOperator]

namespace Operator

/-- The imports that an operator needs. -/
def imports (o : Operator) : List Import :=
  match o.body with
  | .branch _ _ => [.pythonOperator]
  | .dummy => [.dummyOperator]
  | .task t =>
    match t.body with
    | .kill _ => [.bashOperator]
    | .action template _ => ((ActionType.ofName? template).map ActionType.imports).getD []

end Operator

namespace DagModule

/-- The imports of a module with the given operators. -/
def imports (operators : List Operator) (scheduled : Bool) : List Import :=
  Import.all.filter fun i =>
    i == .models || i == .dates || (i == .datetime && scheduled) ||
      operators.any fun o => o.imports.contains i

/-- The keywords of Python. -/
def keywords : List String :=
  ["False", "None", "True", "and", "as", "assert", "async", "await", "break", "class", "continue",
    "def", "del", "elif", "else", "except", "finally", "for", "from", "global", "if", "import",
    "in", "is", "lambda", "nonlocal", "not", "or", "pass", "raise", "return", "try", "while",
    "with", "yield"]

/-- The builtins of Python. -/
def builtins : List String :=
  ["__import__", "abs", "aiter", "all", "anext", "any", "ascii", "bin", "bool", "breakpoint",
    "bytearray", "bytes", "callable", "chr", "classmethod", "compile", "complex", "copyright",
    "credits", "delattr", "dict", "dir", "divmod", "enumerate", "eval", "exec", "exit", "filter",
    "float", "format", "frozenset", "getattr", "globals", "hasattr", "hash", "help", "hex", "id",
    "input", "int", "isinstance", "issubclass", "iter", "len", "license", "list", "locals", "map",
    "max", "memoryview", "min", "next", "object", "oct", "open", "ord", "pow", "print", "property",
    "quit", "range", "repr", "reversed", "round", "set", "setattr", "slice", "sorted",
    "staticmethod", "str", "sum", "super", "tuple", "type", "vars", "zip"]

/-- The names that no variable of an operator may take. -/
def takenNames (imported : List Import) : List String :=
  keywords ++ builtins ++ imported.map Import.name ++ ["dag", "PARAMS"]

/-- Names the variables of operators one after the other. -/
def nameOperators (reserved : List String) : List String → List Operator → List (String × String)
  | _, [] => []
  | taken, o :: rest =>
    let base := if reserved.contains o.id then o.id ++ "_task" else o.id
    let name := freeName taken base
    (o.id, name) :: nameOperators reserved (name :: taken) rest

/-- The variables of operators, by operator id. -/
def operatorNames (operators : List Operator) (imported : List Import) : List (String × String) :=
  nameOperators (takenNames imported) (takenNames imported) operators

/-- The variable of an operator id. -/
def variableOf (names : List (String × String)) (id : String) : String :=
  ((names.find? fun entry => entry.1 == id).map Prod.snd).getD id

end DagModule
end WorkflowDag
