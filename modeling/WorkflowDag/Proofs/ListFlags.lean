import WorkflowDag.Proofs.CommandWords
import WorkflowDag.Proofs.KeyTexts
import WorkflowDag.Proofs.LiteralReading

/-!
# Lists in flags

The configuration, the files, the archives and the parameters of a job stand in one flag each, their
values with commas between them.  Of a list a flag shows whether there are values, and the text they
make together (`shown?`): that and no more is found again in the rendered command.  So a value with
a comma in it is not told from two values, nor an equals sign in a name from the one behind it
(`separators_confuse_lists`).

Main statement: jobs that differ only in their lists are rendered alike exactly where their flags
show the same, and so not at all where no value holds a comma and no name of a configuration an
equals sign (`lists_kept_apart`).
-/

namespace WorkflowDag

namespace Text

/-- Texts with separators between them are determined when none of them holds the separator. -/
theorem joinWith_cons_cons_inj {sep : String} (mark : Char) (hSep : sep.toList = [mark])
    (texts : List String) :
    ∀ {first first' : String} {texts' : List String},
      (∀ text ∈ first :: texts, mark ∉ text.toList) →
      (∀ text ∈ first' :: texts', mark ∉ text.toList) →
      joinWith sep (first :: texts) = joinWith sep (first' :: texts') →
      first :: texts = first' :: texts' := by
  induction texts with
  | nil =>
      intro first first' texts' hTexts hTexts' hSame
      cases texts' with
      | nil => exact congrArg (fun text => [text]) hSame
      | cons next' rest' =>
          exact absurd hSame (ne_append_sep mark hSep (hTexts first List.mem_cons_self))
  | cons next rest ih =>
      intro first first' texts' hTexts hTexts' hSame
      obtain ⟨hFirst, hRest⟩ := List.forall_mem_cons.mp hTexts
      obtain ⟨hFirst', hRest'⟩ := List.forall_mem_cons.mp hTexts'
      cases texts' with
      | nil => exact absurd hSame.symm (ne_append_sep mark hSep hFirst')
      | cons next' rest' =>
          obtain ⟨rfl, hOthers⟩ := append_sep_inj mark hSep hFirst hFirst' hSame
          rw [ih hRest hRest' hOthers]

/-- An entry as it is written in a flag. -/
def setting (entry : String × String) : String :=
  entry.1 ++ "=" ++ entry.2

/-- Entries with commas between them are determined when no name holds an equals sign and no value a
comma: a name ends at the first equals sign, and then its value at the first comma. -/
theorem joinWith_setting_inj (entries : List (String × String)) :
    ∀ {first first' : String × String} {entries' : List (String × String)},
      (∀ entry ∈ first :: entries, '=' ∉ entry.1.toList ∧ ',' ∉ entry.2.toList) →
      (∀ entry ∈ first' :: entries', '=' ∉ entry.1.toList ∧ ',' ∉ entry.2.toList) →
      joinWith "," ((first :: entries).map setting) =
        joinWith "," ((first' :: entries').map setting) →
      first :: entries = first' :: entries' := by
  induction entries with
  | nil =>
      rintro ⟨name, value⟩ ⟨name', value'⟩ entries' hEntries hEntries' hSame
      obtain ⟨hName, hValue⟩ := hEntries _ List.mem_cons_self
      obtain ⟨hName', -⟩ := hEntries' _ List.mem_cons_self
      simp only [List.map_cons, setting, joinWith_append] at hSame
      obtain ⟨rfl, hBehind⟩ := append_sep_inj '=' rfl hName hName' hSame
      cases entries' with
      | nil => exact congrArg (fun value => [(name, value)]) hBehind
      | cons next' rest' => exact absurd hBehind (ne_append_sep ',' rfl hValue)
  | cons next rest ih =>
      rintro ⟨name, value⟩ ⟨name', value'⟩ entries' hEntries hEntries' hSame
      obtain ⟨⟨hName, hValue⟩, hRest⟩ := List.forall_mem_cons.mp hEntries
      obtain ⟨⟨hName', hValue'⟩, hRest'⟩ := List.forall_mem_cons.mp hEntries'
      simp only [List.map_cons, setting, joinWith_append] at hSame
      obtain ⟨rfl, hBehind⟩ := append_sep_inj '=' rfl hName hName' hSame
      cases entries' with
      | nil => exact absurd hBehind.symm (ne_append_sep ',' rfl hValue')
      | cons next' rest' =>
          obtain ⟨rfl, hOthers⟩ := append_sep_inj ',' rfl hValue hValue' hBehind
          rw [ih hRest hRest' hOthers]

end Text

namespace Rendering

open Shell (Word Command)

/-- The types of action that are submitted as jobs of their own. -/
def jobTypes : List ActionType :=
  [.pig, .mapReduce, .spark]

/-- A flag that holds a list. -/
inductive ListFlag where
  | params
  | properties
  | files
  | archives
deriving DecidableEq, Repr

namespace ListFlag

/-- The name of a flag. -/
def name : ListFlag → String
  | params => "params"
  | properties => "properties"
  | files => "files"
  | archives => "archives"

/-- The values of a flag. -/
def values (p : ActionDetails) : ListFlag → List String
  | params => p.texts "param"
  | properties => settings p.configuration
  | files => p.files
  | archives => p.archives

/-- The flags of a job in the order in which they are written. -/
def ofJob : ActionType → List ListFlag
  | .pig => [params, properties, files, archives]
  | _ => [properties, files, archives]

end ListFlag

/-- What a flag shows of a list: nothing when it is empty, or else its values as one text. -/
def shown? (values : List String) : Option String :=
  if values = [] then none else some (Text.joinWith "," values)

/-- The flags of two jobs show the same. -/
def SameFlags (type : ActionType) (p p' : ActionDetails) : Prop :=
  ∀ flag ∈ ListFlag.ofJob type, shown? (flag.values p) = shown? (flag.values p')

/-- The lists of two jobs are the same, the configuration by what is written under each name. -/
structure SameLists (type : ActionType) (p p' : ActionDetails) : Prop where
  params : type = .pig → p.texts "param" = p'.texts "param"
  configuration : ∀ name, p.configuration.get? name = p'.configuration.get? name
  files : p.files = p'.files
  archives : p.archives = p'.archives

/-- No value holds a comma, and no name of the configuration an equals sign. -/
structure Separable (type : ActionType) (p : ActionDetails) : Prop where
  lists : ∀ flag ∈ ListFlag.ofJob type, flag ≠ .properties →
    ∀ value ∈ flag.values p, ',' ∉ value.toList
  configuration : ∀ name value, p.configuration.get? name = some value →
    '=' ∉ name.toList ∧ ',' ∉ value.toList

/-- Apart from their lists, two jobs are the same. -/
structure AgreeElsewhere (p p' : ActionDetails) : Prop where
  prepare : p.prepare = p'.prepare
  texts : ∀ tag, tag ≠ "param" → p.texts tag = p'.texts tag

section Flags

theorem joinedFlag_eq (name : String) (values : List String) :
    joinedFlag name values = (shown? values).toList.map (.flag name) := by
  unfold joinedFlag shown?
  cases values with
  | nil => rfl
  | cons first rest => rfl

theorem flagWord_inj {name name' value value' : String} (hName : '=' ∉ name.toList)
    (hName' : '=' ∉ name'.toList) (hSame : flagWord name value = flagWord name' value') :
    name = name' ∧ value = value' := by
  have hFront : ∀ {name : String}, '=' ∉ name.toList → '=' ∉ ("--" ++ name).toList := by
    intro name hName
    simpa using hName
  obtain ⟨hNames, hValues⟩ :=
    Text.append_sep_inj '=' rfl (hFront hName) (hFront hName') hSame
  refine ⟨String.toList_injective ?_, hValues⟩
  simpa using congrArg String.toList hNames

/-- The words of flags, by what they show. -/
def shownWords (shown : ListFlag → Option String) (flags : List ListFlag) : List String :=
  flags.flatMap fun flag => (shown flag).toList.map (flagWord flag.name)

theorem ListFlag.flagWord_eq {flag flag' : ListFlag} {value value' : String}
    (hSame : flagWord flag.name value = flagWord flag'.name value') :
    flag = flag' ∧ value = value' := by
  have hNames : ∀ flag : ListFlag, '=' ∉ flag.name.toList := by
    intro flag
    cases flag <;> decide
  obtain ⟨hName, hValue⟩ := flagWord_inj (hNames flag) (hNames flag') hSame
  refine ⟨?_, hValue⟩
  revert hName
  cases flag <;> cases flag' <;> decide

/-- A flag whose word is there is one of the flags, and shows its value. -/
theorem ListFlag.of_mem_shownWords {shown : ListFlag → Option String} {flags : List ListFlag}
    {flag : ListFlag} {value : String} (hMem : flagWord flag.name value ∈ shownWords shown flags) :
    flag ∈ flags ∧ shown flag = some value := by
  obtain ⟨other, hOther, hWord⟩ := List.mem_flatMap.mp hMem
  obtain ⟨text, hText, hSame⟩ := List.mem_map.mp hWord
  obtain ⟨rfl, rfl⟩ := ListFlag.flagWord_eq hSame
  exact ⟨hOther, Option.mem_toList.mp hText⟩

/-- What flags show is found again from their words. -/
theorem shown_eq_of_words {shown shown' : ListFlag → Option String} {flags : List ListFlag}
    (hSame : shownWords shown flags = shownWords shown' flags) :
    ∀ flag ∈ flags, shown flag = shown' flag := by
  intro flag hFlag
  have hMem : ∀ {shown : ListFlag → Option String} {value : String}, shown flag = some value →
      flagWord flag.name value ∈ shownWords shown flags := by
    intro shown value hValue
    refine List.mem_flatMap.mpr ⟨flag, hFlag, List.mem_map.mpr ⟨value, ?_, rfl⟩⟩
    exact Option.mem_toList.mpr hValue
  apply Option.ext
  intro value
  constructor
  · intro hValue
    exact (ListFlag.of_mem_shownWords (hSame ▸ hMem hValue)).2
  · intro hValue
    exact (ListFlag.of_mem_shownWords (hSame ▸ hMem hValue)).2

end Flags

section Values

variable {type : ActionType} {p p' : ActionDetails}

/-- Lists of values without commas are found again from what is shown of them. -/
theorem eq_of_shown? {values values' : List String} (hValues : ∀ value ∈ values, ',' ∉ value.toList)
    (hValues' : ∀ value ∈ values', ',' ∉ value.toList) (hSame : shown? values = shown? values') :
    values = values' := by
  cases values with
  | nil =>
      cases values' with
      | nil => rfl
      | cons first' rest' => cases hSame
  | cons first rest =>
      cases values' with
      | nil => cases hSame
      | cons first' rest' =>
          exact Text.joinWith_cons_cons_inj ',' rfl rest hValues hValues' (Option.some.inj hSame)

/-- The entries of a configuration, by name in ascending order. -/
def sortedEntries (r : Record) : List (String × String) :=
  r.sortedNames.map fun name => (name, (r.get? name).getD "")

theorem settings_eq (r : Record) : settings r = (sortedEntries r).map Text.setting := by
  rw [sortedEntries, List.map_map]
  rfl

theorem mem_sortedEntries {r : Record} {name value : String} :
    (name, value) ∈ sortedEntries r ↔ r.get? name = some value := by
  unfold sortedEntries
  rw [List.mem_map]
  constructor
  · rintro ⟨other, hOther, hSame⟩
    obtain ⟨text, hText⟩ := Record.mem_names_iff.mp (Record.mem_sortedNames_iff.mp hOther)
    cases hSame
    rw [hText, Option.getD_some]
  · intro hValue
    have hName := Record.mem_sortedNames_iff.mpr (Record.mem_names_iff.mpr ⟨value, hValue⟩)
    exact ⟨name, hName, by rw [hValue, Option.getD_some]⟩

/-- So are entries, when no name holds an equals sign and no value a comma. -/
theorem entries_eq_of_shown? {entries entries' : List (String × String)}
    (hEntries : ∀ entry ∈ entries, '=' ∉ entry.1.toList ∧ ',' ∉ entry.2.toList)
    (hEntries' : ∀ entry ∈ entries', '=' ∉ entry.1.toList ∧ ',' ∉ entry.2.toList)
    (hSame : shown? (entries.map Text.setting) = shown? (entries'.map Text.setting)) :
    entries = entries' := by
  cases entries with
  | nil =>
      cases entries' with
      | nil => rfl
      | cons first' rest' => cases hSame
  | cons first rest =>
      cases entries' with
      | nil => cases hSame
      | cons first' rest' =>
          exact Text.joinWith_setting_inj rest hEntries hEntries' (Option.some.inj hSame)

/-- A configuration is found again from what is shown of its settings. -/
theorem get?_eq_of_shown? {r s : Record}
    (hr : ∀ name value, r.get? name = some value → '=' ∉ name.toList ∧ ',' ∉ value.toList)
    (hs : ∀ name value, s.get? name = some value → '=' ∉ name.toList ∧ ',' ∉ value.toList)
    (hSame : shown? (settings r) = shown? (settings s)) : ∀ name, r.get? name = s.get? name := by
  rw [settings_eq, settings_eq] at hSame
  have hEntries := entries_eq_of_shown?
    (fun entry hMem => hr entry.1 entry.2 (mem_sortedEntries.mp hMem))
    (fun entry hMem => hs entry.1 entry.2 (mem_sortedEntries.mp hMem)) hSame
  intro name
  apply Option.ext
  intro value
  rw [← mem_sortedEntries, hEntries, mem_sortedEntries]

/-- Where values are separable, lists of which flags show the same are the same. -/
theorem SameFlags.sameLists (hFlags : SameFlags type p p') (hp : Separable type p)
    (hp' : Separable type p') : SameLists type p p' := by
  have hLists : ∀ flag ∈ ListFlag.ofJob type, flag ≠ .properties →
      flag.values p = flag.values p' := by
    intro flag hFlag hOther
    exact eq_of_shown? (hp.lists flag hFlag hOther) (hp'.lists flag hFlag hOther)
      (hFlags flag hFlag)
  have hAlways : ∀ flag, flag ≠ .params → flag ∈ ListFlag.ofJob type := by
    intro flag hFlag
    cases type <;> cases flag <;> simp_all [ListFlag.ofJob]
  constructor
  · rintro rfl
    exact hLists .params List.mem_cons_self (by decide)
  · exact get?_eq_of_shown? hp.configuration hp'.configuration
      (hFlags .properties (hAlways _ (by decide)))
  · exact hLists .files (hAlways _ (by decide)) (by decide)
  · exact hLists .archives (hAlways _ (by decide)) (by decide)

end Values

/-- The words of a job in front of its lists. -/
def jobFront (p : ActionDetails) (target : Target) : ActionType → Command
  | .pig => submission "pig" target ++ [.flag "file" ((p.text? "script").getD "")]
  | .mapReduce =>
    submission "hadoop" target ++ optionalFlag "jar" (p.text? "jar") ++
      optionalFlag "class" (p.text? "main-class")
  | _ => submission "spark" target ++ sparkProgram p

/-- The words of a job behind its lists. -/
def jobBack (p : ActionDetails) : ActionType → Command
  | .spark => sparkArguments p
  | _ => []

/-- The lists of a job. -/
def jobLists (p : ActionDetails) (type : ActionType) : Command :=
  (ListFlag.ofJob type).flatMap fun flag => joinedFlag flag.name (flag.values p)

/-- The command of a job. -/
def jobCommand (p : ActionDetails) (target : Target) (type : ActionType) : Command :=
  jobFront p target type ++ jobLists p type ++ jobBack p type

section Jobs

variable {type : ActionType} {p p' : ActionDetails} {target : Target}

theorem clusterCommands_job (p : ActionDetails) (target : Target) (source : String)
    (hType : type ∈ jobTypes) :
    clusterCommands source type p target = .ok [jobCommand p target type] := by
  have hType : type = .pig ∨ type = .mapReduce ∨ type = .spark := by
    simpa [jobTypes] using hType
  rcases hType with rfl | rfl | rfl
  · simp [clusterCommands, pigCommand, jobCommand, jobFront, jobLists, jobBack, ListFlag.ofJob,
      ListFlag.name, ListFlag.values, configurationFlag, settings, fileFlags]
  · simp [clusterCommands, mapReduceCommand, jobCommand, jobFront, jobLists, jobBack,
      ListFlag.ofJob, ListFlag.name, ListFlag.values, configurationFlag, settings, fileFlags]
  · simp [clusterCommands, sparkCommand, jobCommand, jobFront, jobLists, jobBack, ListFlag.ofJob,
      ListFlag.name, ListFlag.values, configurationFlag, settings, fileFlags]

theorem AgreeElsewhere.text? (hElse : AgreeElsewhere p p') (tag : String) (hTag : tag ≠ "param") :
    p.text? tag = p'.text? tag := by
  have hFirst : ∀ q : ActionDetails, q.text? tag = (q.texts tag).head? := by
    intro q
    rw [ActionDetails.text?, ActionDetails.texts, List.head?_map, List.head?_filter]
  rw [hFirst, hFirst, hElse.texts tag hTag]

theorem AgreeElsewhere.jobFront_eq (hElse : AgreeElsewhere p p') :
    jobFront p target type = jobFront p' target type := by
  have hScript := hElse.text? "script" (by decide)
  have hJar := hElse.text? "jar" (by decide)
  have hMain := hElse.text? "main-class" (by decide)
  have hClass := hElse.text? "class" (by decide)
  unfold jobFront sparkProgram
  rw [hScript, hJar, hMain, hClass]

theorem AgreeElsewhere.jobBack_eq (hElse : AgreeElsewhere p p') :
    jobBack p type = jobBack p' type := by
  unfold jobBack sparkArguments
  rw [hElse.texts "arg" (by decide)]

theorem SameFlags.jobLists_eq (hFlags : SameFlags type p p') :
    jobLists p type = jobLists p' type := by
  refine List.flatMap_congr fun flag hFlag => ?_
  rw [joinedFlag_eq, joinedFlag_eq, hFlags flag hFlag]

theorem text_jobLists : (jobLists p type).map Word.text =
    shownWords (fun flag => shown? (flag.values p)) (ListFlag.ofJob type) := by
  unfold jobLists shownWords
  rw [List.map_flatMap]
  refine List.flatMap_congr fun flag _ => ?_
  rw [joinedFlag_eq, List.map_map]
  rfl

/-- The line of a job: its command behind those of its prepare steps. -/
def jobLine (p : ActionDetails) (target : Target) (type : ActionType) : String :=
  Shell.writeSequence (afterPreparations p target [jobCommand p target type])

theorem ne_ssh_of_jobTypes (hType : type ∈ jobTypes) : type ≠ .ssh := by
  rintro rfl
  exact absurd hType (by decide)

/-- Jobs are always rendered. -/
theorem task_job (hType : type ∈ jobTypes) {t : Task} (hBody : t.body = .action type.name p) :
    task t target = .ok (bash (jobLine p target type)) := by
  have hName : ActionType.ofName? type.name = some type := by
    cases type <;> rfl
  have hCommands := clusterCommands_job p target t.source hType
  have hAction : action t.source type p target =
      clusterCommands t.source type p target >>= fun commands =>
        pure (bash (Shell.writeSequence (afterPreparations p target commands))) := by
    cases type with
    | ssh => exact absurd rfl (ne_ssh_of_jobTypes hType)
    | _ => rfl
  unfold task
  simp only [hBody, hName]
  rw [hAction, hCommands]
  rfl

theorem readCommands_jobLine (p : ActionDetails) (target : Target) (hType : type ∈ jobTypes) :
    Shell.readCommands (jobLine p target type) =
      some ((p.prepare.map fun step => (execute target (preparationCommand step)).map Word.text) ++
        [(jobCommand p target type).map Word.text]) := by
  obtain ⟨-, main, -, hRead⟩ :=
    readAll_cluster (ne_ssh_of_jobTypes hType) (clusterCommands_job p target "" hType)
  obtain ⟨prepared, -, hPrepared⟩ := readAll_preparations target p
  have hNonempty : afterPreparations p target [jobCommand p target type] ≠ [] :=
    List.append_ne_nil_of_right_ne_nil _ (List.cons_ne_nil _ _)
  rw [jobLine, Shell.readCommands_writeSequence hNonempty (hPrepared.append hRead).plain,
    afterPreparations, List.map_append, List.map_map]
  rfl

theorem bash_injective : Function.Injective bash := by
  intro line line' hSame
  have hArguments := congrArg Call.arguments hSame
  simp only [bash, List.cons.injEq, Prod.mk.injEq, and_true, true_and] at hArguments
  exact Literal.quote_injective hArguments

/-- What flags show is found again from the line of a job. -/
theorem sameFlags_of_jobLine (hType : type ∈ jobTypes) (hElse : AgreeElsewhere p p')
    (hSame : jobLine p target type = jobLine p' target type) : SameFlags type p p' := by
  have hRead := readCommands_jobLine p target hType
  rw [hSame, readCommands_jobLine p' target hType, hElse.prepare] at hRead
  have hWords := List.singleton_inj.mp (List.append_cancel_left (Option.some.inj hRead))
  -- In front of the lists and behind them the words are the same, so they can be left out.
  simp only [jobCommand, List.map_append] at hWords
  rw [hElse.jobFront_eq, hElse.jobBack_eq, List.append_left_inj, List.append_right_inj,
    text_jobLists, text_jobLists] at hWords
  exact fun flag hFlag => (shown_eq_of_words hWords flag hFlag).symm

end Jobs

/-- Two jobs of one type that agree but for their lists are rendered alike exactly where their flags
show the same.  Where values are separable, that makes their lists the same. -/
theorem lists_kept_apart (type : ActionType) (hType : type ∈ jobTypes) (t t' : Task)
    (p p' : ActionDetails) (hBody : t.body = .action type.name p)
    (hBody' : t'.body = .action type.name p') (hElse : AgreeElsewhere p p') (target : Target) :
    (∃ line, task t target = .ok (bash line)) ∧
    (task t target = task t' target ↔ SameFlags type p p') ∧
    (Separable type p → Separable type p' → task t target = task t' target →
      SameLists type p p') := by
  have hTask : task t target = .ok (bash (jobLine p target type)) := task_job hType hBody
  have hTask' : task t' target = .ok (bash (jobLine p' target type)) := task_job hType hBody'
  have hFlags : task t target = task t' target → SameFlags type p p' := by
    intro hSame
    rw [hTask, hTask'] at hSame
    exact sameFlags_of_jobLine hType hElse (bash_injective (Except.ok.inj hSame))
  refine ⟨⟨_, hTask⟩, ⟨hFlags, ?_⟩, fun hp hp' hSame => (hFlags hSame).sameLists hp hp'⟩
  intro hSame
  rw [hTask, hTask', jobLine, jobLine, jobCommand, jobCommand, hElse.jobFront_eq, hElse.jobBack_eq,
    hSame.jobLists_eq, afterPreparations, afterPreparations, hElse.prepare]

/-- What a pig job with this configuration and these files runs. -/
def loadDetails (entries : List (String × String)) (files : List String) : ActionDetails where
  configuration := ⟨entries⟩
  files := files
  payload := [{ tag := "script", text := "load.pig" }, { tag := "param", text := "DAY=1" }]

/-- The task of such a job. -/
def loadTask (entries : List (String × String)) (files : List String) : Task where
  id := "load"
  source := "load"
  body := .action "pig" (loadDetails entries files)

theorem lists_kept_apart_files :
    AgreeElsewhere (loadDetails [("k,l", "a=b")] ["x", ""]) (loadDetails [("k,l", "a=b")] ["x"]) ∧
      task (loadTask [("k,l", "a=b")] ["x", ""]) {} ≠
        task (loadTask [("k,l", "a=b")] ["x"]) {} := by
  have hElse : AgreeElsewhere (loadDetails [("k,l", "a=b")] ["x", ""])
      (loadDetails [("k,l", "a=b")] ["x"]) := ⟨rfl, fun _ _ => rfl⟩
  have hConfiguration : ∀ name value, Record.get? ⟨[("k,l", "a=b")]⟩ name = some value →
      '=' ∉ name.toList ∧ ',' ∉ value.toList := by
    intro name value hValue
    rw [Record.get?_cons] at hValue
    split at hValue
    next hName =>
      cases hValue
      rw [← hName]
      decide
    · cases hValue
  have hApart := lists_kept_apart .pig (by decide) (loadTask [("k,l", "a=b")] ["x", ""])
    (loadTask [("k,l", "a=b")] ["x"]) _ _ rfl rfl hElse {}
  refine ⟨hElse, fun hSame => ?_⟩
  have hLists := hApart.2.2 ⟨by decide, hConfiguration⟩ ⟨by decide, hConfiguration⟩ hSame
  exact absurd hLists.files (by decide)

/-- A comma in a file or in a value of the configuration, and an equals sign in a name, are taken
for separators. -/
theorem separators_confuse_lists :
    (["a,b"] ≠ ["a", "b"] ∧ task (loadTask [] ["a,b"]) {} = task (loadTask [] ["a", "b"]) {}) ∧
    (Record.get? ⟨[("k", "1,l=2")]⟩ "l" ≠ Record.get? ⟨[("k", "1"), ("l", "2")]⟩ "l" ∧
      task (loadTask [("k", "1,l=2")] []) {} = task (loadTask [("k", "1"), ("l", "2")] []) {}) ∧
    (Record.get? ⟨[("k=l", "m")]⟩ "k" ≠ Record.get? ⟨[("k", "l=m")]⟩ "k" ∧
      task (loadTask [("k=l", "m")] []) {} = task (loadTask [("k", "l=m")] []) {}) := by
  refine ⟨⟨by decide, rfl⟩, ⟨by decide, rfl⟩, ⟨by decide, rfl⟩⟩

end Rendering
end WorkflowDag
