import Mathlib.Data.List.Forall2
import WorkflowDag.Dag.Rendering
import WorkflowDag.Proofs.ShellReading
import WorkflowDag.Proofs.Success

/-!
# The words of rendered commands

The words that the commands of a task are made of, whatever its values hold: `pigWords` and its like
for jobs, `FileWords` for file operations.  What runs in the job shell of the cluster is handed over
as one word, which is read once more (`Executes`).

Main statement: the line of a rendered task is read as these commands with these words
(`values_stay_words`).
-/

namespace WorkflowDag

theorem ActionType.name_of_ofName? {template : String} {type : ActionType}
    (hType : ActionType.ofName? template = some type) : type.name = template := by
  have hName := List.find?_some hType
  exact eq_of_beq hName

namespace Rendering

open Shell (Word Command Token tokens? readCommands)

/-- A flag with its value. -/
def flagWord (name value : String) : String :=
  "--" ++ name ++ "=" ++ value

/-- The words that submit a job of some kind. -/
def submissionWords (job : String) (target : Target) : List String :=
  ["gcloud", "dataproc", "jobs", "submit", job, flagWord "cluster" target.cluster,
    flagWord "region" target.region]

/-- The command hands one word to the job shell, which reads it as the given words. -/
def Executes (target : Target) (words command : List String) : Prop :=
  ∃ argument, command = submissionWords "pig" target ++ ["--execute", argument] ∧
    readCommands argument = some [words]

/-- The words of a prepare step. -/
def preparationWords (step : Preparation) : List String :=
  match step.op with
  | .mkdir => ["fs", "-mkdir", step.path]
  | .delete => ["fs", "-rm", "-r", step.path]

/-- The flag of a list that is not empty. -/
def listWords (name : String) (values : List String) : List String :=
  if values = [] then [] else [flagWord name (Text.joinWith "," values)]

/-- The settings of a configuration, by name in ascending order. -/
def settings (configuration : Record) : List String :=
  configuration.sortedNames.map fun name => name ++ "=" ++ (configuration.get? name).getD ""

/-- The flags of the configuration, the files and the archives of a task. -/
def resourceWords (p : ActionDetails) : List String :=
  listWords "properties" (settings p.configuration) ++ listWords "files" p.files ++
    listWords "archives" p.archives

/-- The flag of a value that is there. -/
def optionalWords (name : String) (value? : Option String) : List String :=
  value?.toList.map (flagWord name)

/-- The words of a pig action. -/
def pigWords (p : ActionDetails) (target : Target) : List String :=
  submissionWords "pig" target ++ [flagWord "file" ((p.text? "script").getD "")] ++
    listWords "params" (p.texts "param") ++ resourceWords p

/-- The words of a map-reduce action. -/
def mapReduceWords (p : ActionDetails) (target : Target) : List String :=
  submissionWords "hadoop" target ++ optionalWords "jar" (p.text? "jar") ++
    optionalWords "class" (p.text? "main-class") ++ resourceWords p

/-- The words that name the program of a spark action. -/
def programWords (p : ActionDetails) : List String :=
  match p.text? "class" with
  | some mainClass => [flagWord "class" mainClass, flagWord "jars" ((p.text? "jar").getD "")]
  | none => [flagWord "jar" ((p.text? "jar").getD "")]

/-- The arguments of a program, behind a word that ends the flags. -/
def argumentWords (arguments : List String) : List String :=
  if arguments = [] then [] else "--" :: arguments

/-- The words of a spark action. -/
def sparkWords (p : ActionDetails) (target : Target) : List String :=
  submissionWords "spark" target ++ programWords p ++ resourceWords p ++
    argumentWords (p.texts "arg")

/-- A file operation: its option, whether it may go down a tree, and the attributes that hold its
values. -/
structure FileOperation where
  tag : String
  option : String
  descends : Bool
  attributes : List String
deriving DecidableEq, Repr

/-- The file operations that are written alike. -/
def fileOperations : List FileOperation :=
  [⟨"mkdir", "-mkdir", false, ["path"]⟩, ⟨"move", "-mv", false, ["source", "target"]⟩,
    ⟨"chmod", "-chmod", true, ["permissions", "path"]⟩, ⟨"touchz", "-touchz", false, ["path"]⟩,
    ⟨"chgrp", "-chgrp", true, ["group", "path"]⟩,
    ⟨"setrep", "-setrep", false, ["replication-factor", "path"]⟩]

/-- The option that lets an operation go down a tree. -/
def descentWords (e : Element) (descends : Bool) : List String :=
  if descends && e.children.any (fun child => child.tag == "recursive") then ["-R"] else []

/-- The words of a file operation. -/
inductive FileWords (e : Element) : List String → Prop
  | listed {operation : FileOperation} {values : List String}
      (hOperation : operation ∈ fileOperations) (hTag : e.tag = operation.tag)
      (hValues : operation.attributes.map e.attributes.get? = values.map some) :
      FileWords e (["fs", operation.option] ++ descentWords e operation.descends ++ values)
  | delete {path : String} (hTag : e.tag = "delete")
      (hPath : e.attributes.get? "path" = some path) :
      FileWords e (["fs", "-rm", "-r", path] ++
        if isOn e "skip-trash" then ["-skipTrash"] else [])

/-- The commands of an action behind those of its prepare steps. -/
inductive MainCommands (target : Target) (p : ActionDetails) :
    ActionType → List (List String) → Prop
  | pig : MainCommands target p .pig [pigWords p target]
  | mapReduce : MainCommands target p .mapReduce [mapReduceWords p target]
  | spark : MainCommands target p .spark [sparkWords p target]
  | shell {exec : String} {command : List String} (hExec : p.text? "exec" = some exec)
      (hCommand : Executes target ("sh" :: exec :: p.texts "argument") command) :
      MainCommands target p .shell [command]
  | files {words commands : List (List String)} (hSome : p.payload ≠ [])
      (hWords : List.Forall₂ FileWords p.payload words)
      (hCommands : List.Forall₂ (Executes target) words commands) :
      MainCommands target p .fs commands
  | nothing (hNone : p.payload = []) : MainCommands target p .fs [["true"]]

/-- The call of a task holds a line that is read as what the task says. -/
inductive Says (target : Target) : TaskBody → Call → Prop
  | kill {message line : String}
      (hLine : tokens? line = some [.word "echo", .word message, .duplicate, .word "2", .semicolon,
        .word "exit", .word "1"]) :
      Says target (.kill message) (bash line)
  | remote {p : ActionDetails} {host command hook line : String}
      (hHost : p.text? "host" = some host) (hCommand : p.text? "command" = some command)
      (hLine : readCommands line = some [command :: p.texts "args"]) :
      Says target (.action "ssh" p)
        ⟨"ssh_operator.SSHOperator", [("ssh_hook", hook), ("command", Literal.quote line)]⟩
  | cluster {type : ActionType} {p : ActionDetails} {prepared main : List (List String)}
      {line : String}
      (hPrepared : List.Forall₂ (fun step => Executes target (preparationWords step)) p.prepare
        prepared)
      (hMain : MainCommands target p type main)
      (hLine : readCommands line = some (prepared ++ main)) :
      Says target (.action type.name p) (bash line)

/-- The command is read as these words. -/
structure ReadAs (command : Command) (words : List String) : Prop where
  plain : command.all Word.isPlain = true
  words : command.map Word.text = words

section Words

variable {target : Target} {p : ActionDetails}

theorem ReadAs.append {first second : Command} {words more : List String}
    (hFirst : ReadAs first words) (hSecond : ReadAs second more) :
    ReadAs (first ++ second) (words ++ more) := by
  constructor
  · rw [List.all_append, hFirst.plain, hSecond.plain]
    rfl
  · rw [List.map_append, hFirst.words, hSecond.words]

theorem readAs_values (values : List String) : ReadAs (values.map .value) values := by
  constructor
  · rw [List.all_map]
    exact List.all_eq_true.mpr fun _ _ => rfl
  · rw [List.map_map]
    exact List.map_id values

theorem ReadAs.executes {command : Command} {words : List String} (hRead : ReadAs command words) :
    Executes target words ((execute target command).map Word.text) :=
  ⟨command.write, rfl, hRead.words ▸ Shell.readCommands_write hRead.plain⟩

theorem readAs_preparation (step : Preparation) :
    ReadAs (preparationCommand step) (preparationWords step) := by
  unfold preparationCommand preparationWords
  cases step.op with
  | mkdir => exact ⟨rfl, rfl⟩
  | delete => exact ⟨rfl, rfl⟩

theorem readAs_flag {name : String} (hName : name.toList.all Shell.isSafe = true)
    (value : String) : ReadAs [.flag name value] [flagWord name value] := by
  refine ⟨?_, rfl⟩
  show (name.toList.all Shell.isSafe && true) = true
  rw [hName]
  rfl

theorem readAs_joinedFlag {name : String} (hName : name.toList.all Shell.isSafe = true)
    (values : List String) : ReadAs (joinedFlag name values) (listWords name values) := by
  unfold joinedFlag listWords
  cases values with
  | nil => exact ⟨rfl, rfl⟩
  | cons first rest => exact readAs_flag hName _

theorem readAs_optionalFlag {name : String} (hName : name.toList.all Shell.isSafe = true)
    (value? : Option String) : ReadAs (optionalFlag name value?) (optionalWords name value?) := by
  cases value? with
  | none => exact ⟨rfl, rfl⟩
  | some value => exact readAs_flag hName value

theorem readAs_resources :
    ReadAs (configurationFlag p.configuration ++ fileFlags p) (resourceWords p) := by
  unfold resourceWords fileFlags
  rw [List.append_assoc]
  exact (readAs_joinedFlag rfl _).append
    ((readAs_joinedFlag rfl p.files).append (readAs_joinedFlag rfl p.archives))

theorem readAs_pig : ReadAs (pigCommand p target) (pigWords p target) := by
  have hFront : ReadAs (submission "pig" target ++ [.flag "file" ((p.text? "script").getD "")])
      (submissionWords "pig" target ++ [flagWord "file" ((p.text? "script").getD "")]) :=
    ⟨rfl, rfl⟩
  unfold pigCommand pigWords
  rw [List.append_assoc (_ ++ joinedFlag "params" _)]
  exact (hFront.append (readAs_joinedFlag rfl _)).append readAs_resources

theorem readAs_mapReduce : ReadAs (mapReduceCommand p target) (mapReduceWords p target) := by
  have hFront : ReadAs (submission "hadoop" target) (submissionWords "hadoop" target) := ⟨rfl, rfl⟩
  unfold mapReduceCommand mapReduceWords
  rw [List.append_assoc (_ ++ optionalFlag "class" _)]
  exact ((hFront.append (readAs_optionalFlag rfl _)).append (readAs_optionalFlag rfl _)).append
    readAs_resources

theorem readAs_program : ReadAs (sparkProgram p) (programWords p) := by
  unfold sparkProgram programWords
  cases p.text? "class" with
  | none => exact ⟨rfl, rfl⟩
  | some mainClass => exact ⟨rfl, rfl⟩

theorem readAs_arguments : ReadAs (sparkArguments p) (argumentWords (p.texts "arg")) := by
  unfold sparkArguments argumentWords
  cases p.texts "arg" with
  | nil => exact ⟨rfl, rfl⟩
  | cons first rest =>
      have hMark : ReadAs [.fixed "--"] ["--"] := ⟨rfl, rfl⟩
      exact hMark.append (readAs_values (first :: rest))

theorem readAs_spark : ReadAs (sparkCommand p target) (sparkWords p target) := by
  have hFront : ReadAs (submission "spark" target) (submissionWords "spark" target) := ⟨rfl, rfl⟩
  unfold sparkCommand sparkWords
  rw [List.append_assoc (_ ++ sparkProgram p)]
  exact ((hFront.append readAs_program).append readAs_resources).append readAs_arguments

theorem readAs_shell {source : String} {command : Command}
    (hCommand : shellCommand source p = .ok command) :
    ∃ exec, p.text? "exec" = some exec ∧
      ReadAs command ("sh" :: exec :: p.texts "argument") := by
  unfold shellCommand at hCommand
  split at hCommand
  next exec hExec =>
    cases hCommand
    have hFront : ReadAs [.fixed "sh", .value exec] ["sh", exec] := ⟨rfl, rfl⟩
    exact ⟨exec, hExec, hFront.append (readAs_values _)⟩
  · cases hCommand

end Words

section Files

variable {source : String} {e : Element}

theorem exists_value_of_requiredAttribute {key : String} {word : Word}
    (hWord : requiredAttribute source e key = .ok word) :
    ∃ value, e.attributes.get? key = some value ∧ word = .value value := by
  unfold requiredAttribute at hWord
  split at hWord
  next value hValue =>
    cases hWord
    exact ⟨value, hValue, rfl⟩
  · cases hWord

theorem readAs_recursiveOption : ReadAs (recursiveOption e) (descentWords e true) := by
  unfold recursiveOption descentWords
  cases e.children.any (fun child => child.tag == "recursive") with
  | true => exact ⟨rfl, rfl⟩
  | false => exact ⟨rfl, rfl⟩

theorem readAs_noOption : ReadAs [] (descentWords e false) := ⟨rfl, rfl⟩

/-- A listed operation is read as its option, the one that lets it go down a tree, and its
values. -/
theorem readAs_listed {operation : FileOperation} (hOperation : operation ∈ fileOperations)
    (hTag : e.tag = operation.tag) {options : Command}
    (hOptions : ReadAs options (descentWords e operation.descends)) {values : List String}
    (hValues : operation.attributes.map e.attributes.get? = values.map some) :
    ∃ words, FileWords e words ∧
      ReadAs ([.fixed "fs", .fixed operation.option] ++ options ++ values.map .value) words := by
  -- The options are fixed, so that they mean nothing to a shell is seen from the list.
  have hSafe : ∀ operation ∈ fileOperations,
      List.all [.fixed "fs", .fixed operation.option] Word.isPlain = true := by
    decide
  have hFront : ReadAs [.fixed "fs", .fixed operation.option] ["fs", operation.option] :=
    ⟨hSafe operation hOperation, rfl⟩
  exact ⟨_, .listed hOperation hTag hValues, (hFront.append hOptions).append (readAs_values values)⟩

/-- An operation with one value. -/
theorem readAs_one (option : String) {tag key : String} {command : Command} (hTag : e.tag = tag)
    (hOperation : ⟨tag, option, false, [key]⟩ ∈ fileOperations)
    (hCommand : (requiredAttribute source e key >>= fun value =>
      pure [.fixed "fs", .fixed option, value]) = .ok command) :
    ∃ words, FileWords e words ∧ ReadAs command words := by
  obtain ⟨_, hWord, hCommand⟩ := bind_eq_ok_iff.mp hCommand
  obtain ⟨value, hValue, rfl⟩ := exists_value_of_requiredAttribute hWord
  cases hCommand
  have hValues : [key].map e.attributes.get? = [value].map some := by
    rw [List.map_singleton, hValue, List.map_singleton]
  exact readAs_listed hOperation hTag readAs_noOption hValues

/-- An operation with two values. -/
theorem readAs_two (option : String) (descends : Bool) {tag key other : String}
    {options command : Command} (hTag : e.tag = tag)
    (hOptions : ReadAs options (descentWords e descends))
    (hOperation : ⟨tag, option, descends, [key, other]⟩ ∈ fileOperations)
    (hCommand : (requiredAttribute source e key >>= fun value =>
      requiredAttribute source e other >>= fun second =>
        pure ([.fixed "fs", .fixed option] ++ options ++ [value, second])) = .ok command) :
    ∃ words, FileWords e words ∧ ReadAs command words := by
  obtain ⟨_, hWord, hCommand⟩ := bind_eq_ok_iff.mp hCommand
  obtain ⟨_, hOther, hCommand⟩ := bind_eq_ok_iff.mp hCommand
  obtain ⟨value, hValue, rfl⟩ := exists_value_of_requiredAttribute hWord
  obtain ⟨second, hSecond, rfl⟩ := exists_value_of_requiredAttribute hOther
  cases hCommand
  have hValues : [key, other].map e.attributes.get? = [value, second].map some := by
    rw [List.map_cons, List.map_singleton, hValue, hSecond, List.map_cons, List.map_singleton]
  exact readAs_listed hOperation hTag hOptions hValues

theorem readAs_delete {command : Command} (hTag : e.tag = "delete")
    (hCommand : (requiredAttribute source e "path" >>= fun path =>
      pure ([.fixed "fs", .fixed "-rm", .fixed "-r", path] ++
        if isOn e "skip-trash" then [.fixed "-skipTrash"] else [])) = .ok command) :
    ∃ words, FileWords e words ∧ ReadAs command words := by
  obtain ⟨_, hWord, hCommand⟩ := bind_eq_ok_iff.mp hCommand
  obtain ⟨path, hPath, rfl⟩ := exists_value_of_requiredAttribute hWord
  cases hCommand
  refine ⟨_, .delete hTag hPath, ?_⟩
  cases isOn e "skip-trash" with
  | true => exact ⟨rfl, rfl⟩
  | false => exact ⟨rfl, rfl⟩

theorem readAs_file {command : Command} (hCommand : fileCommand source e = .ok command) :
    ∃ words, FileWords e words ∧ ReadAs command words := by
  unfold fileCommand at hCommand
  split at hCommand
  next hTag => exact readAs_one "-mkdir" hTag (by decide) hCommand
  split at hCommand
  next hTag => exact readAs_delete hTag hCommand
  split at hCommand
  next hTag => exact readAs_two "-mv" false hTag readAs_noOption (by decide) hCommand
  split at hCommand
  next hTag => exact readAs_two "-chmod" true hTag readAs_recursiveOption (by decide) hCommand
  split at hCommand
  next hTag => exact readAs_one "-touchz" hTag (by decide) hCommand
  split at hCommand
  next hTag => exact readAs_two "-chgrp" true hTag readAs_recursiveOption (by decide) hCommand
  split at hCommand
  next hTag => exact readAs_two "-setrep" false hTag readAs_noOption (by decide) hCommand
  · cases hCommand

theorem readAs_files (payload : List Element) :
    ∀ {commands : List Command}, fileCommands source payload = .ok commands →
      ∃ words, List.Forall₂ FileWords payload words ∧ List.Forall₂ ReadAs commands words := by
  induction payload with
  | nil =>
      intro commands hCommands
      cases hCommands
      exact ⟨[], .nil, .nil⟩
  | cons e rest ih =>
      intro commands hCommands
      obtain ⟨command, hCommand, hCommands⟩ := bind_eq_ok_iff.mp hCommands
      obtain ⟨others, hOthers, hCommands⟩ := bind_eq_ok_iff.mp hCommands
      cases hCommands
      obtain ⟨words, hWords, hRead⟩ := readAs_file hCommand
      obtain ⟨more, hMore, hReadMore⟩ := ih hOthers
      exact ⟨words :: more, .cons hWords hMore, .cons hRead hReadMore⟩

end Files

/-- The commands are read as these lists of words. -/
structure ReadAll (commands : List Command) (words : List (List String)) : Prop where
  plain : ∀ command ∈ commands, command.all Word.isPlain = true
  words : commands.map (fun command => command.map Word.text) = words

section Commands

variable {target : Target} {p : ActionDetails} {source : String}

theorem ReadAs.readAll {command : Command} {words : List String} (hRead : ReadAs command words) :
    ReadAll [command] [words] :=
  ⟨List.forall_mem_singleton.mpr hRead.plain, congrArg (fun words => [words]) hRead.words⟩

theorem ReadAll.append {first second : List Command} {words more : List (List String)}
    (hFirst : ReadAll first words) (hSecond : ReadAll second more) :
    ReadAll (first ++ second) (words ++ more) :=
  ⟨List.forall_mem_append.mpr ⟨hFirst.plain, hSecond.plain⟩,
    by rw [List.map_append, hFirst.words, hSecond.words]⟩

theorem readAs_execute (command : Command) :
    ReadAs (execute target command)
      (submissionWords "pig" target ++ ["--execute", command.write]) :=
  ⟨rfl, rfl⟩

/-- Commands that are handed to the job shell are read as one word there and then once more. -/
theorem readAll_executed (target : Target) {commands : List Command} {words : List (List String)}
    (hRead : List.Forall₂ ReadAs commands words) :
    ∃ executed, List.Forall₂ (Executes target) words executed ∧
      ReadAll (commands.map (execute target)) executed := by
  induction hRead with
  | nil => exact ⟨[], .nil, fun _ hMem => absurd hMem List.not_mem_nil, rfl⟩
  | cons hFirst _ ih =>
      obtain ⟨executed, hExecuted, hAll⟩ := ih
      exact ⟨_ :: executed, .cons hFirst.executes hExecuted,
        (readAs_execute _).readAll.append hAll⟩

theorem readAll_preparations (target : Target) (p : ActionDetails) :
    ∃ prepared, List.Forall₂ (fun step => Executes target (preparationWords step)) p.prepare
        prepared ∧
      ReadAll (p.prepare.map fun step => execute target (preparationCommand step)) prepared := by
  have hRead : List.Forall₂ ReadAs (p.prepare.map preparationCommand)
      (p.prepare.map preparationWords) := by
    rw [List.forall₂_map_left_iff, List.forall₂_map_right_iff, List.forall₂_same]
    exact fun step _ => readAs_preparation step
  obtain ⟨prepared, hPrepared, hAll⟩ := readAll_executed target hRead
  rw [List.forall₂_map_left_iff] at hPrepared
  rw [List.map_map] at hAll
  exact ⟨prepared, hPrepared, hAll⟩

theorem readAll_files {commands : List Command}
    (hCommands : fileCommands source p.payload = .ok commands) :
    ∃ main, MainCommands target p .fs main ∧
      ReadAll (if commands.isEmpty then [[.fixed "true"]] else commands.map (execute target))
        main := by
  obtain ⟨words, hWords, hRead⟩ := readAs_files p.payload hCommands
  obtain ⟨executed, hExecuted, hAll⟩ := readAll_executed target hRead
  -- There are as many commands as operations: none of the one exactly where none of the other.
  cases commands with
  | nil =>
      cases hRead
      have hTrue : ReadAs [.fixed "true"] ["true"] := ⟨rfl, rfl⟩
      exact ⟨_, .nothing (List.forall₂_nil_right_iff.mp hWords), hTrue.readAll⟩
  | cons command rest =>
      have hSome : p.payload ≠ [] := by
        intro hNone
        rw [hNone] at hCommands
        cases hCommands
      exact ⟨executed, .files hSome hWords hExecuted, hAll⟩

/-- The commands of an action on the cluster, and what they are read as. -/
theorem readAll_cluster {type : ActionType} (hType : type ≠ .ssh) {commands : List Command}
    (hCommands : clusterCommands source type p target = .ok commands) :
    commands ≠ [] ∧ ∃ main, MainCommands target p type main ∧ ReadAll commands main := by
  cases type with
  | pig =>
      cases hCommands
      exact ⟨List.cons_ne_nil _ _, _, .pig, readAs_pig.readAll⟩
  | mapReduce =>
      cases hCommands
      exact ⟨List.cons_ne_nil _ _, _, .mapReduce, readAs_mapReduce.readAll⟩
  | spark =>
      cases hCommands
      exact ⟨List.cons_ne_nil _ _, _, .spark, readAs_spark.readAll⟩
  | shell =>
      obtain ⟨command, hCommand, hSame⟩ := map_eq_ok_iff.mp hCommands
      cases hSame
      obtain ⟨exec, hExec, hRead⟩ := readAs_shell hCommand
      exact ⟨List.cons_ne_nil _ _, _, .shell hExec hRead.executes, (readAs_execute command).readAll⟩
  | fs =>
      obtain ⟨files, hFiles, hSame⟩ := map_eq_ok_iff.mp hCommands
      cases hSame
      refine ⟨?_, readAll_files hFiles⟩
      cases files with
      | nil => exact List.cons_ne_nil _ _
      | cons command rest => exact List.cons_ne_nil _ _
  | ssh => exact absurd rfl hType

theorem says_cluster {type : ActionType} (hType : type ≠ .ssh) {commands : List Command}
    (hCommands : clusterCommands source type p target = .ok commands) :
    Says target (.action type.name p)
      (bash (Shell.writeSequence (afterPreparations p target commands))) := by
  obtain ⟨hSome, main, hMain, hRead⟩ := readAll_cluster hType hCommands
  obtain ⟨prepared, hPrepared, hReadPrepared⟩ := readAll_preparations target p
  have hAll := hReadPrepared.append hRead
  have hNonempty : afterPreparations p target commands ≠ [] :=
    fun hNone => hSome (List.append_eq_nil_iff.mp hNone).2
  refine .cluster hPrepared hMain ?_
  rw [Shell.readCommands_writeSequence hNonempty hAll.plain]
  exact congrArg some hAll.words

theorem says_remote {host command : String} (hHost : p.text? "host" = some host)
    (hCommand : p.text? "command" = some command) :
    Says target (.action "ssh" p)
      (remoteCall host (.value command :: (p.texts "args").map .value)) := by
  have hRead : ReadAs (.value command :: (p.texts "args").map .value) (command :: p.texts "args") :=
    readAs_values (command :: p.texts "args")
  have hLine := Shell.readCommands_write hRead.plain
  rw [hRead.words] at hLine
  exact .remote hHost hCommand hLine

theorem says_action {type : ActionType} {call : Call}
    (hCall : action source type p target = .ok call) : Says target (.action type.name p) call := by
  unfold action at hCall
  split at hCall
  · split at hCall
    next host command hHost hCommand =>
      cases hCall
      exact says_remote hHost hCommand
    · cases hCall
  next hType =>
    obtain ⟨commands, hCommands, hCall⟩ := bind_eq_ok_iff.mp hCall
    cases hCall
    exact says_cluster hType hCommands

theorem says_kill (message : String) : Says target (.kill message) (kill message) := by
  have hEcho : Shell.Reads [] "echo" [.word "echo"] := ⟨_, rfl, rfl⟩
  have hMessage : Shell.Reads [.word "echo"] (Shell.quote message) [.word message] :=
    Shell.reads_word (w := .value message) rfl
  have hExit : Shell.Reads [.word "echo", .word message] ">&2; exit 1"
      [.duplicate, .word "2", .semicolon, .word "exit", .word "1"] := ⟨_, rfl, rfl⟩
  have hLine : "echo " ++ Shell.quote message ++ " >&2; exit 1" =
      "echo" ++ " " ++ Shell.quote message ++ " " ++ ">&2; exit 1" :=
    String.toList_injective (by simp)
  refine .kill ?_
  rw [hLine]
  exact ((hEcho.space hMessage).space hExit).tokens?_eq

end Commands

/-- The line of a rendered task is read as the commands of the task, each value as a word of its own
or as the end of its flag, whatever the values are. -/
theorem values_stay_words (t : Task) (target : Target) (call : Call)
    (hCall : task t target = .ok call) : Says target t.body call := by
  unfold task at hCall
  cases hBody : t.body with
  | kill message =>
      rw [hBody] at hCall
      cases hCall
      exact says_kill message
  | action template p =>
      simp only [hBody] at hCall
      cases hType : ActionType.ofName? template with
      | none =>
          rw [hType] at hCall
          cases hCall
      | some type =>
          simp only [hType] at hCall
          rw [← ActionType.name_of_ofName? hType]
          exact says_action hCall

namespace ActiveValues

/-- A shell action whose values are full of what means something to a shell. -/
def shellTask : Task where
  id := "run"
  source := "run"
  body := .action "shell" {
    prepare := [⟨.delete, "/tmp/it's; rm -r $HOME"⟩]
    payload := [
      { tag := "exec", text := "run.sh && exit" }, { tag := "argument", text := "" },
      { tag := "argument", text := "'" }, { tag := "argument", text := "a\\ b\n$(c)" }] }

end ActiveValues

theorem values_stay_words_active :
    ∃ call, task ActiveValues.shellTask ⟨"two words", "x&y"⟩ = .ok call ∧
      Says ⟨"two words", "x&y"⟩ ActiveValues.shellTask.body call :=
  ⟨_, rfl, values_stay_words ActiveValues.shellTask ⟨"two words", "x&y"⟩ _ rfl⟩

end Rendering
end WorkflowDag
