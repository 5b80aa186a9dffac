import WorkflowDag.Dag.Literal
import WorkflowDag.Dag.Operator
import WorkflowDag.Error
import WorkflowDag.Shell.Word

/-!
# Rendering operators

The call that makes each operator.  Actions run on a cluster through shell commands; every value of
a task becomes one word of such a command, or one part of a flag.
-/

namespace WorkflowDag

/-- The cluster that jobs are submitted to. -/
structure Target where
  cluster : String := "cluster-0"
  region : String := "europe-west1"
deriving DecidableEq, Repr

/-- The types of action that can be rendered. -/
inductive ActionType where
  | fs
  | mapReduce
  | pig
  | shell
  | spark
  | ssh
deriving DecidableEq, Repr

namespace ActionType

/-- All types, in ascending order of their names. -/
def all : List ActionType := [fs, mapReduce, pig, shell, spark, ssh]

/-- The name of a type. -/
def name : ActionType → String
  | fs => "fs"
  | mapReduce => "map-reduce"
  | pig => "pig"
  | shell => "shell"
  | spark => "spark"
  | ssh => "ssh"

/-- The type of a name. -/
def ofName? (s : String) : Option ActionType :=
  all.find? fun type => type.name == s

end ActionType

namespace ActionDetails

/-- The text of the first payload element of a tag. -/
def text? (p : ActionDetails) (tag : String) : Option String :=
  (p.payload.find? fun e => e.tag == tag).map Element.text

/-- The texts of all payload elements of a tag. -/
def texts (p : ActionDetails) (tag : String) : List String :=
  (p.payload.filter fun e => e.tag == tag).map Element.text

end ActionDetails

namespace Rendering
open Shell (Word Command)

/-- The words that submit a job of some kind. -/
def submission (job : String) (target : Target) : Command :=
  [.fixed "gcloud", .fixed "dataproc", .fixed "jobs", .fixed "submit", .fixed job,
    .flag "cluster" target.cluster, .flag "region" target.region]

/-- Runs one command of the job shell on the cluster. -/
def execute (target : Target) (command : Command) : Command :=
  submission "pig" target ++ [.fixed "--execute", .value command.write]

/-- The command of a prepare step. -/
def preparationCommand (step : Preparation) : Command :=
  match step.op with
  | .mkdir => [.fixed "fs", .fixed "-mkdir", .value step.path]
  | .delete => [.fixed "fs", .fixed "-rm", .fixed "-r", .value step.path]

/-- A flag that holds a list, left out when the list is empty. -/
def joinedFlag (name : String) (values : List String) : Command :=
  if values.isEmpty then [] else [.flag name (Text.joinWith "," values)]

/-- The flag that holds a configuration, its names in ascending order. -/
def configurationFlag (configuration : Record) : Command :=
  joinedFlag "properties"
    (configuration.sortedNames.map fun name => name ++ "=" ++ (configuration.get? name).getD "")

/-- The flags that name the files and archives of a task. -/
def fileFlags (p : ActionDetails) : Command :=
  joinedFlag "files" p.files ++ joinedFlag "archives" p.archives

/-- The commands of a task behind those of its prepare steps. -/
def afterPreparations (p : ActionDetails) (target : Target) (commands : List Command) :
    List Command :=
  p.prepare.map (fun step => execute target (preparationCommand step)) ++ commands

/-- The value of an attribute that has to be there. -/
def requiredAttribute (source : String) (e : Element) (key : String) : Except Error Word :=
  match e.attributes.get? key with
  | some value => .ok (.value value)
  | none => .error (.task source (.missingAttribute e.tag key))

/-- An attribute switches something on unless it is absent or says `false`. -/
def isOn (e : Element) (key : String) : Bool :=
  match e.attributes.get? key with
  | some value => value != "false"
  | none => false

/-- The option for the whole tree below a path. -/
def recursiveOption (e : Element) : Command :=
  if e.children.any fun child => child.tag == "recursive" then [.fixed "-R"] else []

/-- The command of a file operation. -/
def fileCommand (source : String) (e : Element) : Except Error Command :=
  let value := requiredAttribute source e
  if e.tag = "mkdir" then do
    let path ← value "path"
    pure [.fixed "fs", .fixed "-mkdir", path]
  else if e.tag = "delete" then do
    let path ← value "path"
    pure ([.fixed "fs", .fixed "-rm", .fixed "-r", path] ++
      if isOn e "skip-trash" then [.fixed "-skipTrash"] else [])
  else if e.tag = "move" then do
    let origin ← value "source"
    let target ← value "target"
    pure [.fixed "fs", .fixed "-mv", origin, target]
  else if e.tag = "chmod" then do
    let permissions ← value "permissions"
    let path ← value "path"
    pure ([.fixed "fs", .fixed "-chmod"] ++ recursiveOption e ++ [permissions, path])
  else if e.tag = "touchz" then do
    let path ← value "path"
    pure [.fixed "fs", .fixed "-touchz", path]
  else if e.tag = "chgrp" then do
    let group ← value "group"
    let path ← value "path"
    pure ([.fixed "fs", .fixed "-chgrp"] ++ recursiveOption e ++ [group, path])
  else if e.tag = "setrep" then do
    let factor ← value "replication-factor"
    let path ← value "path"
    pure [.fixed "fs", .fixed "-setrep", factor, path]
  else .error (.task source (.unknownFileOperation e.tag))

/-- The commands of a list of file operations. -/
def fileCommands (source : String) : List Element → Except Error (List Command)
  | [] => .ok []
  | e :: rest => do
    let command ← fileCommand source e
    let commands ← fileCommands source rest
    pure (command :: commands)

/-- The command of a pig action. -/
def pigCommand (p : ActionDetails) (target : Target) : Command :=
  submission "pig" target ++ [.flag "file" ((p.text? "script").getD "")] ++
    joinedFlag "params" (p.texts "param") ++ configurationFlag p.configuration ++ fileFlags p

/-- A flag that holds an optional value. -/
def optionalFlag (name : String) : Option String → Command
  | some value => [.flag name value]
  | none => []

/-- The command of a map-reduce action. -/
def mapReduceCommand (p : ActionDetails) (target : Target) : Command :=
  submission "hadoop" target ++ optionalFlag "jar" (p.text? "jar") ++
    optionalFlag "class" (p.text? "main-class") ++ configurationFlag p.configuration ++ fileFlags p

/-- The words that name the program of a spark action. -/
def sparkProgram (p : ActionDetails) : Command :=
  let jar := (p.text? "jar").getD ""
  match p.text? "class" with
  | some mainClass => [.flag "class" mainClass, .flag "jars" jar]
  | none => [.flag "jar" jar]

/-- The arguments of a spark program. -/
def sparkArguments (p : ActionDetails) : Command :=
  let arguments := p.texts "arg"
  if arguments.isEmpty then [] else .fixed "--" :: arguments.map .value

/-- The command of a spark action. -/
def sparkCommand (p : ActionDetails) (target : Target) : Command :=
  submission "spark" target ++ sparkProgram p ++ configurationFlag p.configuration ++ fileFlags p ++
    sparkArguments p

/-- The command of a shell action. -/
def shellCommand (source : String) (p : ActionDetails) : Except Error Command :=
  match p.text? "exec" with
  | some exec => .ok (.fixed "sh" :: .value exec :: (p.texts "argument").map .value)
  | none => .error (.task source .noExec)

/-- The shell commands that an action runs on the cluster; an action on a remote host has none. -/
def clusterCommands (source : String) (type : ActionType) (p : ActionDetails) (target : Target) :
    Except Error (List Command) :=
  match type with
  | .pig => .ok [pigCommand p target]
  | .mapReduce => .ok [mapReduceCommand p target]
  | .spark => .ok [sparkCommand p target]
  | .shell => (shellCommand source p).map fun command => [execute target command]
  | .fs => (fileCommands source p.payload).map fun commands =>
      if commands.isEmpty then [[.fixed "true"]] else commands.map (execute target)
  | .ssh => .ok []

/-- A call that runs a shell command. -/
def bash (command : String) : Call :=
  ⟨"bash_operator.BashOperator", [("bash_command", Literal.quote command)]⟩

/-- The user, if named, and the host of a remote address. -/
def remoteAddress (host : String) : Option String × String :=
  match Text.cut? ['@'] host.toList with
  | some (user, remote) => (some (String.ofList user), String.ofList remote)
  | none => (none, host)

/-- A call that runs a command on a remote host. -/
def remoteCall (host : String) (command : Command) : Call :=
  let (user, remote) := remoteAddress host
  let hook := Text.joinWith ", "
    (("remote_host=" ++ Literal.quote remote) ::
      (user.map fun name => "username=" ++ Literal.quote name).toList)
  ⟨"ssh_operator.SSHOperator",
    [("ssh_hook", "ssh_hook.SSHHook(" ++ hook ++ ")"), ("command", Literal.quote command.write)]⟩

/-- The call that makes the operator of an action. -/
def action (source : String) (type : ActionType) (p : ActionDetails) (target : Target) :
    Except Error Call :=
  match type with
  | .ssh =>
    match p.text? "host", p.text? "command" with
    | some host, some command =>
      .ok (remoteCall host (.value command :: (p.texts "args").map .value))
    | _, _ => .error (.task source .incompleteRemote)
  | other => do
    let commands ← clusterCommands source other p target
    pure (bash (Shell.writeSequence (afterPreparations p target commands)))

/-- The call that ends a run with a message. -/
def kill (message : String) : Call :=
  bash ("echo " ++ Shell.quote message ++ " >&2; exit 1")

/-- The call that follows a branch. -/
def branch (chosen : String) : Call :=
  ⟨"python_operator.BranchPythonOperator",
    [("python_callable", "lambda: " ++ Literal.quote chosen)]⟩

/-- The call that does nothing. -/
def dummy : Call :=
  ⟨"dummy_operator.DummyOperator", []⟩

/-- The call that makes the operator of a task. -/
def task (t : Task) (target : Target) : Except Error Call :=
  match t.body with
  | .kill message => .ok (kill message)
  | .action template params =>
    match ActionType.ofName? template with
    | some type => action t.source type params target
    | none => .error (.unsupportedAction t.source template (ActionType.all.map ActionType.name))

/-- The call that makes an operator, without its id and its trigger rule. -/
def operator (o : Operator) (target : Target) : Except Error Call :=
  match o.body with
  | .branch _ chosen => .ok (branch chosen)
  | .dummy => .ok dummy
  | .task t => task t target

end Rendering
end WorkflowDag
