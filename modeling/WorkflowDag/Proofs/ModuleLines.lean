import WorkflowDag.Dag.Module
import WorkflowDag.Proofs.ModuleGrammar
import WorkflowDag.Proofs.OperatorNames
import WorkflowDag.Proofs.PairedDocument

/-!
# Every line of a module has a shape

What is rendered for an operator is a call of words (`Rendering.operator_calls`).  From there on,
each section of a module is a block of lines: the lines that are meant are listed next to the text
that is written, and the text is shown to consist of them (`DagModule.sections_eq`).
`DagModule.Written` collects what is known of a module that has been written.

The main statement is `lines_have_shapes`: however a document is converted, no text of it and no
option leaves the word, or the comment, that it stands in.
-/

namespace WorkflowDag

/-- A call that makes an operator. -/
structure OperatorCall where
  made : OperatorClass
  arguments : List (Identifier × ArgumentValue)

namespace OperatorCall

/-- The call with its words written. -/
def call (c : OperatorCall) : Call :=
  ⟨c.made.callee, c.arguments.map fun argument => (argument.1.text, argument.2.text)⟩

/-- The modules that a call refers to. -/
def references (c : OperatorCall) : List Import :=
  c.made.provider :: c.arguments.flatMap fun argument => argument.2.references

/-- A call that runs a shell command. -/
def bash (command : String) : OperatorCall :=
  ⟨.bash, [(⟨"bash_command", by decide⟩, .literal (.ofText command))]⟩

/-- A call that runs a command on a remote host. -/
def remote (host : String) (user : Option String) (command : String) : OperatorCall :=
  ⟨.remote,
    [(⟨"ssh_hook", by decide⟩, .hook (.ofText host) (user.map .ofText)),
      (⟨"command", by decide⟩, .literal (.ofText command))]⟩

/-- A call that follows a branch. -/
def branch (chosen : String) : OperatorCall :=
  ⟨.branch, [(⟨"python_callable", by decide⟩, .returning (.ofText chosen))]⟩

/-- A call that does nothing. -/
def dummy : OperatorCall :=
  ⟨.dummy, []⟩

theorem call_bash (command : String) : (bash command).call = Rendering.bash command := rfl

theorem call_branch (chosen : String) : (branch chosen).call = Rendering.branch chosen := rfl

theorem call_dummy : dummy.call = Rendering.dummy := rfl

theorem call_remote (address : String) (command : Shell.Command) :
    (remote (Rendering.remoteAddress address).2 (Rendering.remoteAddress address).1
      command.write).call = Rendering.remoteCall address command := by
  have hHook (host : String) (user : Option String) :
      (ArgumentValue.hook (.ofText host) (user.map .ofText)).text =
        "ssh_hook.SSHHook(" ++ Text.joinWith ", " (("remote_host=" ++ Literal.quote host) ::
          (user.map fun name => "username=" ++ Literal.quote name).toList) ++ ")" := by
    refine String.toList_injective ?_
    cases user <;> simp [ArgumentValue.text, StringLiteral.text_ofText, Text.joinWith, Import.name]
  simp only [call, remote, Rendering.remoteCall, List.map_cons, List.map_nil, hHook]
  rfl

end OperatorCall

section Rendered

variable {o : Operator} {target : Target} {rendered : Call}

theorem Rendering.action_calls {source : String} {type : ActionType} {details : ActionDetails}
    (hRender : action source type details target = .ok rendered) :
    ∃ c : OperatorCall, c.call = rendered ∧ c.references ⊆ type.imports := by
  unfold action at hRender
  split at hRender
  · split at hRender
    · cases hRender
      refine ⟨_, OperatorCall.call_remote _ _, ?_⟩
      simp [OperatorCall.references, OperatorCall.remote, OperatorClass.provider,
        ArgumentValue.references, ActionType.imports]
    · cases hRender
  next hRemote =>
    obtain ⟨commands, -, hRender⟩ := bind_eq_ok_iff.mp hRender
    cases hRender
    refine ⟨_, OperatorCall.call_bash _, ?_⟩
    cases type with
    | ssh => exact absurd rfl hRemote
    | _ => exact List.Subset.refl _

/-- What is rendered for an operator is a call of words, which refers to what the operator needs. -/
theorem Rendering.operator_calls (hRender : operator o target = .ok rendered) :
    ∃ c : OperatorCall, c.call = rendered ∧ c.references ⊆ o.imports := by
  -- The imports of an operator are found by the same cases as its call.
  unfold operator at hRender
  unfold Operator.imports
  cases hBody : o.body with
  | branch record chosen =>
      rw [hBody] at hRender
      cases hRender
      exact ⟨_, OperatorCall.call_branch chosen, List.Subset.refl _⟩
  | dummy =>
      rw [hBody] at hRender
      cases hRender
      exact ⟨_, OperatorCall.call_dummy, List.Subset.refl _⟩
  | task t =>
      rw [hBody] at hRender
      dsimp only [task] at hRender ⊢
      cases hTask : t.body with
      | kill message =>
          rw [hTask] at hRender
          cases hRender
          exact ⟨_, OperatorCall.call_bash _, List.Subset.refl _⟩
      | action template details =>
          rw [hTask] at hRender
          dsimp only at hRender ⊢
          cases hType : ActionType.ofName? template with
          | none =>
              rw [hType] at hRender
              cases hRender
          | some type =>
              rw [hType] at hRender
              exact action_calls hRender

end Rendered

namespace DagModule

/-- Lines put below each other. -/
def block (ls : List ModuleLine) : String :=
  Text.joinWith "\n" (ls.map ModuleLine.write)

/-- What is said about a case. -/
def caseRemark (c : CaseRecord) : Remark where
  text :=
    "   case " ++ Text.singleLine c.guard ++ " -> " ++ Text.singleLine c.target ++ ": " ++
      (c.value.map Literal.quote).getD "not evaluated"
  unbroken := by
    refine .append (.append (.append (.append (.append (.ofList rfl) (Text.unbroken_singleLine _))
      (.ofList rfl)) (Text.unbroken_singleLine _)) (.ofList rfl)) ?_
    cases c.value with
    | none => exact .ofList rfl
    | some value => exact (StringLiteral.ofText value).unbroken

/-- What is said about the choice of a decision. -/
def choiceRemark (r : ResolvedDecision) : Remark where
  text := " Decision \"" ++ Text.singleLine r.decision ++ "\" selected \"" ++
    Text.singleLine r.selected ++ "\"."
  unbroken := .append (.append (.append (.append (.ofList rfl) (Text.unbroken_singleLine _))
    (.ofList rfl)) (Text.unbroken_singleLine _)) (.ofList rfl)

/-- What is said about the default of a decision. -/
def defaultRemark (r : ResolvedDecision) : Remark where
  text := "   default -> " ++ Text.singleLine r.fallback
  unbroken := .append (.ofList rfl) (Text.unbroken_singleLine _)

/-- The comment lines of a decision. -/
def decisionLines (r : ResolvedDecision) : List ModuleLine :=
  .comment (choiceRemark r) :: r.cases.map (fun c => .comment (caseRemark c)) ++
    [.comment (defaultRemark r)]

theorem write_comment {remark : Remark} {line : String}
    (hLine : line.toList = '#' :: remark.text.toList) :
    (ModuleLine.comment remark).write = Literal.indentation ++ line := by
  refine String.toList_injective ?_
  simp [ModuleLine.write, ModuleLine.pieces, Literal.indentation, hLine]

theorem write_caseRemark (c : CaseRecord) :
    (ModuleLine.comment (caseRemark c)).write = Literal.indentation ++ caseComment c := by
  refine write_comment ?_
  cases hValue : c.value <;> simp [caseRemark, caseComment, hValue]

theorem write_decisionLines (r : ResolvedDecision) :
    (decisionLines r).map ModuleLine.write = indented (decisionComment r) := by
  have hChoice : (ModuleLine.comment (choiceRemark r)).write =
      Literal.indentation ++ ("# Decision \"" ++ Text.singleLine r.decision ++ "\" selected \"" ++
        Text.singleLine r.selected ++ "\".") := write_comment (by simp [choiceRemark])
  have hDefault : (ModuleLine.comment (defaultRemark r)).write =
      Literal.indentation ++ ("#   default -> " ++ Text.singleLine r.fallback) :=
    write_comment (by simp [defaultRemark])
  simp only [decisionLines, decisionComment, indented, List.map_append, List.map_cons, List.map_map,
    List.map_nil, Function.comp_def, hChoice, write_caseRemark, hDefault]

/-- The comment lines in front of an operator. -/
def commentLines (o : Operator) : List ModuleLine :=
  match o.body with
  | .branch record _ => decisionLines record
  | _ => []

/-- The lines of the arguments that an operator is made with. -/
def argumentLines (o : Operator) (c : OperatorCall) : List ModuleLine :=
  .argument ⟨"task_id", by decide⟩ (.literal (.ofText o.id)) ::
    c.arguments.map (fun argument => .argument argument.1 argument.2) ++
    [.argument ⟨"trigger_rule", by decide⟩ (.literal (.ofText o.triggerRule.name))]

/-- The lines that define an operator. -/
def definitionLines (names : List (String × String)) (o : Operator) (c : OperatorCall) :
    List ModuleLine :=
  commentLines o ++ .definition (.ofText (variableOf names o.id)) c.made ::
    (argumentLines o c ++ [.definitionClose])

theorem operatorComment_eq (o : Operator) : operatorComment o =
    String.join (((commentLines o).map ModuleLine.write).map fun line => line ++ "\n") := by
  unfold operatorComment commentLines
  cases o.body with
  | branch record chosen =>
      dsimp only
      rw [write_decisionLines]
  | task task => rfl
  | dummy => rfl

theorem write_argument (keyword : Identifier) (value : ArgumentValue) :
    (ModuleLine.argument keyword value).write =
      Call.argumentLine Literal.indentation (keyword.text, value.text) := by
  refine String.toList_injective ?_
  simp [ModuleLine.write, ModuleLine.pieces, Call.argumentLine, Literal.indentation]

theorem write_argumentLines (o : Operator) (c : OperatorCall) :
    (argumentLines o c).map ModuleLine.write =
      (("task_id", Literal.quote o.id) :: c.call.arguments ++
        [("trigger_rule", Literal.quote o.triggerRule.name)]).map
          (Call.argumentLine Literal.indentation) := by
  simp only [argumentLines, OperatorCall.call, List.map_append, List.map_cons, List.map_map,
    List.map_nil, Function.comp_def, write_argument]
  rfl

theorem block_definitionLines {names : List (String × String)} {o : Operator}
    (hName : isIdentifier (variableOf names o.id) = true) (c : OperatorCall) :
    block (definitionLines names o c) = operatorText names o c.call := by
  have hFirst : (ModuleLine.definition (.ofText (variableOf names o.id)) c.made).write =
      Literal.indentation ++ variableOf names o.id ++ " = " ++ (c.made.callee ++ "(") := by
    refine String.toList_injective ?_
    simp [ModuleLine.write, ModuleLine.pieces, Identifier.text_ofText hName, Literal.indentation]
  have hLast : ModuleLine.definitionClose.write = Literal.indentation ++ ")" := by decide
  -- The comments each end their line, while the lines behind them are joined.
  rw [block, definitionLines, List.map_append, List.map_cons, List.map_append, List.map_singleton,
    hFirst, hLast, write_argumentLines, ← Text.join_append_joinWith, Text.joinWith_append,
    ← operatorComment_eq]
  simp only [operatorText, String.append_assoc]
  rfl

/-- The lines of the parameters. -/
def paramsLines (r : Record) : List ModuleLine :=
  if r.size = 0 then [.noParams]
  else
    .paramsOpen :: r.sortedNames.map
      (fun name => .entry (.ofText name) (.ofText ((r.get? name).getD ""))) ++ [.paramsClose]

/-- The lines of the head of the DAG. -/
def headLines (options : ModuleOptions) : List ModuleLine :=
  [.dagOpen, .dagId (.ofText options.dagName),
    .schedule (if options.scheduleIntervalDays.isPositive then
      some (.ofNumber options.scheduleIntervalDays) else none),
    .startDate (.ofNumber options.startDaysAgo), .dagParams, .dagClose]

/-- The line of a relation. -/
def relationOf (names : List (String × String)) (pair : Operator × Operator) : ModuleLine :=
  .relation (.ofText (variableOf names pair.1.id)) (.ofText (variableOf names pair.2.id))

theorem block_paramsLines (r : Record) :
    block (paramsLines r) = "PARAMS = " ++ Literal.dict "" r := by
  have hEntry (name : String) :
      (ModuleLine.entry (.ofText name) (.ofText ((r.get? name).getD ""))).write =
        Literal.entryLine "" r name := by
    refine String.toList_injective ?_
    simp [ModuleLine.write, ModuleLine.pieces, StringLiteral.text_ofText, Literal.entryLine,
      Literal.indentation]
  have hClose : ModuleLine.paramsClose.write = "" ++ "\x7d" := by decide
  unfold paramsLines Literal.dict block
  split
  · decide
  · rw [List.cons_append, List.cons_append, ← Text.joinWith_append]
    simp only [List.map_append, List.map_cons, List.map_map, List.map_nil, Function.comp_def,
      hEntry, hClose]
    rfl

theorem block_headLines (options : ModuleOptions) :
    block (headLines options) = dagHead options := by
  refine String.toList_injective ?_
  unfold dagHead headLines
  -- With or without a schedule, there is the same number of lines.
  split <;>
    simp [block, Text.joinWith, ModuleLine.write, ModuleLine.pieces, ModuleLine.scheduleText,
      Import.name, Call.write, Call.argumentLine, Literal.indentation, StringLiteral.text_ofText,
      Numeral.ofNumber]

theorem write_relationOf {names : List (String × String)} {pair : Operator × Operator}
    (hFirst : isIdentifier (variableOf names pair.1.id) = true)
    (hSecond : isIdentifier (variableOf names pair.2.id) = true) :
    (relationOf names pair).write = Literal.indentation ++ relationLine names pair := by
  refine String.toList_injective ?_
  simp [relationOf, ModuleLine.write, ModuleLine.pieces, relationLine,
    Identifier.text_ofText hFirst, Identifier.text_ofText hSecond, Literal.indentation]

theorem block_title (workflow : String) : block [.title (.ofText workflow)] =
    "# DAG generated from workflow " ++ Literal.quote workflow ++ "." := by
  refine String.toList_injective ?_
  simp [block, Text.joinWith, ModuleLine.write, ModuleLine.pieces, StringLiteral.text_ofText]

theorem block_imports (imported : List Import) :
    block (imported.map .imported) = Text.joinWith "\n" (imported.map Import.line) := by
  simp [block, ModuleLine.write, ModuleLine.pieces, Function.comp_def]

theorem block_decisionLines (r : ResolvedDecision) :
    block (decisionLines r) = Text.joinWith "\n" (indented (decisionComment r)) := by
  rw [block, write_decisionLines]

theorem mem_relations {order : List Operator} {first second : Operator} :
    (first, second) ∈ relations order ↔
      first ∈ order ∧ second ∈ order ∧ first.id ∈ second.predecessors := by
  simp [relations]

theorem block_relations {names : List (String × String)} {order : List Operator}
    (hNames : ∀ o ∈ order, isIdentifier (variableOf names o.id) = true) :
    block ((relations order).map (relationOf names)) =
      Text.joinWith "\n" (indented ((relations order).map (relationLine names))) := by
  rw [block, indented, List.map_map, List.map_map]
  refine congrArg (Text.joinWith "\n") (List.map_congr_left fun pair hPair => ?_)
  obtain ⟨hFirst, hSecond, -⟩ := mem_relations.mp hPair
  exact write_relationOf (hNames _ hFirst) (hNames _ hSecond)

/-- The section of the relations, left out when there are none. -/
def relationSection (names : List (String × String)) (order : List Operator) :
    List (List ModuleLine) :=
  if (relations order).isEmpty then [] else [(relations order).map (relationOf names)]

/-- The section of a DAG without operators. -/
def passSection (order : List Operator) : List (List ModuleLine) :=
  if order.isEmpty then [[.pass]] else []

/-- The sections of a module as lines. -/
def sectionLines (g : TaskGraph) (options : ModuleOptions) (imported : List Import)
    (names : List (String × String)) (definitions : List (Operator × OperatorCall)) :
    List (List ModuleLine) :=
  let order := definitions.map Prod.fst
  [[.title (.ofText g.workflow)], imported.map .imported, paramsLines g.configuration,
    headLines options] ++
  definitions.map (fun definition => definitionLines names definition.1 definition.2) ++
  (remainingDecisions g order).map decisionLines ++
  relationSection names order ++ passSection order

section Sections

variable {g : TaskGraph} {options : ModuleOptions} {imported : List Import}
  {names : List (String × String)} {definitions : List (Operator × OperatorCall)}

theorem sections_eq
    (hNames : ∀ o ∈ definitions.map Prod.fst, isIdentifier (variableOf names o.id) = true) :
    sections g options (definitions.map Prod.fst) imported names
        (definitions.map fun definition => operatorText names definition.1 definition.2.call) =
      (sectionLines g options imported names definitions).map block := by
  have hDefinitions : definitions.map (fun definition =>
        block (definitionLines names definition.1 definition.2)) =
      definitions.map fun definition => operatorText names definition.1 definition.2.call :=
    List.map_congr_left fun definition hMem =>
      block_definitionLines (hNames _ (List.mem_map_of_mem hMem)) _
  have hPass : block [.pass] = Literal.indentation ++ "pass" := by decide
  -- Both sides list the sections in one order, so they are compared one by one.
  unfold sections sectionLines relationSection passSection
  simp only [List.map_append, List.map_cons, List.map_nil, List.map_map, Function.comp_def,
    List.isEmpty_map, apply_ite (List.map block), block_title, block_imports, block_paramsLines,
    block_headLines, hDefinitions, block_decisionLines, block_relations hNames, hPass]

theorem paramsLines_ne_nil (r : Record) : paramsLines r ≠ [] := by
  unfold paramsLines
  split
  · exact List.cons_ne_nil _ _
  · exact List.cons_ne_nil _ _

theorem ne_nil_of_mem_relationSection {order : List Operator} :
    ∀ ls ∈ relationSection names order, ls ≠ [] := by
  unfold relationSection
  split
  · exact fun _ hMem => absurd hMem List.not_mem_nil
  next hSome =>
    refine List.forall_mem_singleton.mpr fun hNil => hSome ?_
    rw [List.map_eq_nil_iff.mp hNil]
    rfl

theorem ne_nil_of_mem_passSection {order : List Operator} :
    ∀ ls ∈ passSection order, ls ≠ [] := by
  unfold passSection
  split
  · exact List.forall_mem_singleton.mpr (List.cons_ne_nil _ _)
  · exact fun _ hMem => absurd hMem List.not_mem_nil

/-- No section is empty. -/
theorem ne_nil_of_mem_sectionLines (hImported : imported ≠ []) :
    ∀ ls ∈ sectionLines g options imported names definitions, ls ≠ [] := by
  have hDefinition (o : Operator) (c : OperatorCall) : definitionLines names o c ≠ [] :=
    List.append_ne_nil_of_right_ne_nil _ (List.cons_ne_nil _ _)
  have hDecision (r : ResolvedDecision) : decisionLines r ≠ [] := List.cons_ne_nil _ _
  intro ls hMem
  simp only [sectionLines, List.mem_append, List.mem_cons, List.not_mem_nil, or_false,
    List.mem_map] at hMem
  rcases hMem with
    ((((rfl | rfl | rfl | rfl) | ⟨definition, -, rfl⟩) | ⟨r, -, rfl⟩) | hMem) | hMem
  · exact List.cons_ne_nil _ _
  · exact fun hNil => hImported (List.map_eq_nil_iff.mp hNil)
  · exact paramsLines_ne_nil _
  · exact List.cons_ne_nil _ _
  · exact hDefinition _ _
  · exact hDecision _
  · exact ne_nil_of_mem_relationSection ls hMem
  · exact ne_nil_of_mem_passSection ls hMem

/-- The lines of a module: every section is followed by a blank line. -/
def moduleLines (sections : List (List ModuleLine)) : List ModuleLine :=
  sections.flatMap fun ls => ls ++ [.blank]

theorem lines_of_sections {sections : List (List ModuleLine)} (hSome : sections ≠ [])
    (hSections : ∀ ls ∈ sections, ls ≠ []) :
    Text.lines (Text.joinWith "\n\n" (sections.map block) ++ "\n") =
      (moduleLines sections).map ModuleLine.write := by
  have hBlock : ∀ ls ∈ sections, Text.lines (block ls) = ls.map ModuleLine.write := by
    intro ls hMem
    refine Text.lines_of_joinWith (fun hNil => hSections ls hMem (List.map_eq_nil_iff.mp hNil)) ?_
    intro text hText
    obtain ⟨l, -, rfl⟩ := List.mem_map.mp hText
    exact l.unbroken
  rw [Text.lines_joinWith_blank (fun hNil => hSome (List.map_eq_nil_iff.mp hNil)), moduleLines,
    List.map_flatMap, List.flatMap_map]
  refine List.flatMap_congr fun ls hMem => ?_
  rw [hBlock ls hMem, List.map_append]
  rfl

end Sections

/-- What has been rendered is a call of words for every operator. -/
theorem exists_definitions {names : List (String × String)} {target : Target}
    (order : List Operator) :
    ∀ {texts : List String}, (operatorTexts names target order).result = .ok texts →
      ∃ definitions : List (Operator × OperatorCall), definitions.map Prod.fst = order ∧
        (definitions.map fun definition =>
          operatorText names definition.1 definition.2.call) = texts ∧
        ∀ definition ∈ definitions, definition.2.references ⊆ definition.1.imports := by
  -- Rendering stops at the first operator that has no call, so here each of them has one.
  induction order with
  | nil =>
      intro texts hTexts
      cases hTexts
      exact ⟨[], rfl, rfl, fun _ hMem => absurd hMem List.not_mem_nil⟩
  | cons o rest ih =>
      intro texts hTexts
      rw [operatorTexts, Traced.result_bind, Traced.result_ofExcept] at hTexts
      obtain ⟨rendered, hRender, hTexts⟩ := bind_eq_ok_iff.mp hTexts
      rw [Traced.result_bind, Workflow.result_forM_tell, ok_bind, Traced.result_bind] at hTexts
      obtain ⟨others, hOthers, hTexts⟩ := bind_eq_ok_iff.mp hTexts
      cases hTexts
      obtain ⟨c, rfl, hReferences⟩ := Rendering.operator_calls hRender
      obtain ⟨definitions, rfl, rfl, hRest⟩ := ih hOthers
      exact ⟨(o, c) :: definitions, rfl, rfl, List.forall_mem_cons.mpr ⟨hReferences, hRest⟩⟩

/-- The text is a module that defines the operators of a task graph by the given calls. -/
structure Written (g : TaskGraph) (options : ModuleOptions) (text : String)
    (imported : List Import) (definitions : List (Operator × OperatorCall)) : Prop where
  layout : g.layout = .ok (definitions.map Prod.fst)
  named : Layout.Named (definitions.map Prod.fst)
  imports : imports (definitions.map Prod.fst) options.scheduleIntervalDays.isPositive = imported
  references : ∀ definition ∈ definitions, definition.2.references ⊆ definition.1.imports
  lines : Text.lines text = (moduleLines (sectionLines g options imported
    (operatorNames (definitions.map Prod.fst) imported) definitions)).map ModuleLine.write

theorem imports_ne_nil (order : List Operator) (scheduled : Bool) :
    imports order scheduled ≠ [] := by
  have hModels : Import.models ∈ imports order scheduled := by simp [imports, Import.all]
  exact List.ne_nil_of_mem hModels

theorem exists_written {g : TaskGraph} {options : ModuleOptions} {text : String}
    (hNamed : ∀ order, g.layout = .ok order → Layout.Named order)
    (hEmit : (g.emit options).result = .ok text) :
    ∃ imported definitions, Written g options text imported definitions := by
  unfold TaskGraph.emit at hEmit
  rw [Traced.result_bind, Traced.result_ofExcept] at hEmit
  obtain ⟨order, hLayout, hEmit⟩ := bind_eq_ok_iff.mp hEmit
  rw [Traced.result_bind] at hEmit
  obtain ⟨texts, hTexts, hEmit⟩ := bind_eq_ok_iff.mp hEmit
  cases hEmit
  obtain ⟨definitions, rfl, rfl, hReferences⟩ := exists_definitions order hTexts
  have hOwn := hNamed _ hLayout
  refine ⟨_, definitions, hLayout, hOwn, rfl, hReferences, ?_⟩
  -- Variables are words only because the operators have been named.
  rw [sections_eq, lines_of_sections]
  · exact List.cons_ne_nil _ _
  · exact ne_nil_of_mem_sectionLines (imports_ne_nil _ _)
  · intro o hMem
    exact (namedApart_operatorVariables hOwn _).identifiers _ (List.mem_map_of_mem hMem)

theorem exists_written_of_convert {source : String} {options : ConversionOptions} {c : Conversion}
    (hConvert : (convert source options).result = .ok c) :
    ∃ imported definitions, Written c.graph options.dag c.text imported definitions := by
  obtain ⟨hRead, hGraph, hEmit⟩ := convert_eq_ok_iff.mp hConvert
  have hChecked := Workflow.checked_of_read hRead
  exact exists_written (fun _ hLayout =>
    (Transformed.of_ofWorkflow hChecked hGraph).named_of_layout hChecked hLayout) hEmit

end DagModule

/-- Whatever a document and the options say, each line of the module has one of the shapes, and the
words in it can be told in one way only.  A blank line is a shape too. -/
theorem lines_have_shapes {source : String} {options : ConversionOptions} {c : Conversion}
    (hConvert : (convert source options).result = .ok c) :
    ∀ line ∈ Text.lines c.text, ∃! l : ModuleLine, l.write = line := by
  obtain ⟨imported, definitions, hWritten⟩ := DagModule.exists_written_of_convert hConvert
  rw [hWritten.lines]
  intro line hLine
  obtain ⟨l, -, rfl⟩ := List.mem_map.mp hLine
  exact ⟨l, rfl, fun other hSame => ModuleLine.write_injective hSame⟩

namespace BrokenNames

/-- The units of a document in which quotes and line breaks stand wherever a text may stand. -/
def units : List Char :=
  ["<w name='w&quot;&#10;w'>",
    "<start to='d&#10;d'/>",
    "<decision name='d&#10;d'><switch><case to='a&quot;&#10;a'>$\x7bflag\x7d&#10;</case>",
    "<default to='e'/></switch></decision>",
    "<action name='a&quot;&#10;a'><pig><script>s&quot;</script></pig>",
    "<ok to='e'/><error to='k&quot;'/></action>",
    "<kill name='k&quot;'><message>m&quot;&#10;m</message></kill>",
    "<end name='e'/>",
    "</w>"].flatMap String.toList

/-- The document with these units. -/
def source : String :=
  String.ofList units

/-- Options with such texts. -/
def options : ConversionOptions where
  transform := { configuration := ⟨[("flag", "\"\n"), ("\"", "\r")]⟩ }
  dag := { dagName := "\"\n" }

/-- The workflow of the document. -/
def workflow : Workflow where
  name := "w\"\nw"
  nodes :=
    [.start "d\nd",
      .decision ⟨"d\nd", [⟨"$\x7bflag\x7d", "a\"\na"⟩], "e"⟩,
      .action
        { name := "a\"\na"
          actionType := "pig"
          payload := [{ tag := "script", text := "s\"" }]
          ok := "e"
          error := "k\"" },
      .kill "k\"" "m\"\nm",
      .finish "e"]
  closingJoins := []
  defaults := .empty

theorem read_source : (Workflow.read source).result = .ok workflow :=
  Workflow.read_ofList (by decide +kernel)

theorem convert_isOk : (convert source options).result.isOk = true := by
  rw [convert_of_read _ read_source]
  decide +kernel

end BrokenNames

theorem lines_have_shapes_brokenNames :
    ∃ c, (convert BrokenNames.source BrokenNames.options).result = .ok c ∧
      ∀ line ∈ Text.lines c.text, ∃! l : ModuleLine, l.write = line := by
  obtain ⟨c, hConvert⟩ := exists_ok_of_isOk BrokenNames.convert_isOk
  exact ⟨c, hConvert, lines_have_shapes hConvert⟩

end WorkflowDag
