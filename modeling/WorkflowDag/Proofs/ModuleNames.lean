import WorkflowDag.Proofs.ModuleLines

/-!
# The names in a module

What the lines of a module import, define, relate and refer to is read off the lines themselves.
Most lines tell nothing of this, so that what a module tells is what its imports, its head, its
definitions and its relations tell (`DagModule.told_of_moduleLines`).

The main statement is `names_are_consistent`.  The lines of a module can be read in one way only.
The variables in them are apart from each other and from every other name of the module, whatever
the lines refer to is imported, and the relations are those of the layout (`DagModule.RelationsOf`).
-/

namespace WorkflowDag

namespace ModuleLine

/-- The modules that a line imports. -/
def imports : ModuleLine → List Import
  | imported i => [i]
  | _ => []

/-- The variables that a line defines. -/
def defines : ModuleLine → List Identifier
  | definition name _ => [name]
  | _ => []

/-- The variables that a line puts in relation. -/
def relates : ModuleLine → List (Identifier × Identifier)
  | relation first second => [(first, second)]
  | _ => []

/-- The line tells nothing of modules and variables. -/
def isQuiet : ModuleLine → Bool
  | imported _ => false
  | dagOpen => false
  | schedule _ => false
  | startDate _ => false
  | definition _ _ => false
  | argument _ _ => false
  | relation _ _ => false
  | _ => true

theorem imports_of_isQuiet {l : ModuleLine} (hQuiet : l.isQuiet = true) : l.imports = [] := by
  cases l with
  | imported i => cases hQuiet
  | _ => rfl

theorem defines_of_isQuiet {l : ModuleLine} (hQuiet : l.isQuiet = true) : l.defines = [] := by
  cases l with
  | definition name made => cases hQuiet
  | _ => rfl

theorem relates_of_isQuiet {l : ModuleLine} (hQuiet : l.isQuiet = true) : l.relates = [] := by
  cases l with
  | relation first second => cases hQuiet
  | _ => rfl

theorem references_of_isQuiet {l : ModuleLine} (hQuiet : l.isQuiet = true) : l.references = [] := by
  cases l with
  | dagOpen => cases hQuiet
  | schedule days => cases hQuiet
  | startDate days => cases hQuiet
  | definition name made => cases hQuiet
  | argument keyword value => cases hQuiet
  | _ => rfl

end ModuleLine

theorem flatMap_const_nil {α β : Type} (xs : List α) : (xs.flatMap fun _ => ([] : List β)) = [] :=
  List.flatMap_eq_nil_iff.mpr fun _ _ => rfl

namespace DagModule

section Told

variable {α : Type} {tell : ModuleLine → List α} {names : List (String × String)}

theorem isQuiet_of_mem_paramsLines {r : Record} : ∀ l ∈ paramsLines r, l.isQuiet = true := by
  unfold paramsLines
  split
  · exact List.forall_mem_singleton.mpr rfl
  · exact List.forall_mem_append.mpr ⟨List.forall_mem_cons.mpr ⟨rfl, List.forall_mem_map.mpr
      fun _ _ => rfl⟩, List.forall_mem_singleton.mpr rfl⟩

theorem isQuiet_of_mem_decisionLines {r : ResolvedDecision} :
    ∀ l ∈ decisionLines r, l.isQuiet = true :=
  List.forall_mem_append.mpr ⟨List.forall_mem_cons.mpr ⟨rfl, List.forall_mem_map.mpr
    fun _ _ => rfl⟩, List.forall_mem_singleton.mpr rfl⟩

theorem isQuiet_of_mem_commentLines {o : Operator} : ∀ l ∈ commentLines o, l.isQuiet = true := by
  unfold commentLines
  cases o.body with
  | branch record chosen => exact isQuiet_of_mem_decisionLines
  | task task => exact fun _ hMem => absurd hMem List.not_mem_nil
  | dummy => exact fun _ hMem => absurd hMem List.not_mem_nil

theorem told_of_relationSection (order : List Operator) :
    (relationSection names order).flatMap (fun ls => ls.flatMap tell) =
      (relations order).flatMap fun pair => tell (relationOf names pair) := by
  unfold relationSection
  split
  next hEmpty =>
    rw [List.isEmpty_iff.mp hEmpty]
    rfl
  · rw [List.flatMap_singleton, List.flatMap_map]

variable (hQuiet : ∀ l : ModuleLine, l.isQuiet = true → tell l = [])
include hQuiet

theorem told_of_quiet {ls : List ModuleLine} (hLines : ∀ l ∈ ls, l.isQuiet = true) :
    ls.flatMap tell = [] :=
  List.flatMap_eq_nil_iff.mpr fun l hMem => hQuiet l (hLines l hMem)

theorem told_of_passSection (order : List Operator) :
    (passSection order).flatMap (fun ls => ls.flatMap tell) = [] := by
  unfold passSection
  split
  · rw [List.flatMap_singleton, List.flatMap_singleton, hQuiet .pass rfl]
  · rfl

theorem told_of_definitionLines (o : Operator) (c : OperatorCall) :
    (definitionLines names o c).flatMap tell =
      tell (.definition (.ofText (variableOf names o.id)) c.made) ++
        (argumentLines o c).flatMap tell := by
  rw [definitionLines, List.flatMap_append, told_of_quiet hQuiet isQuiet_of_mem_commentLines,
    List.nil_append, List.flatMap_cons, List.flatMap_append, List.flatMap_singleton,
    hQuiet .definitionClose rfl, List.append_nil]

theorem told_of_sections (sections : List (List ModuleLine)) :
    (moduleLines sections).flatMap tell = sections.flatMap fun ls => ls.flatMap tell := by
  rw [moduleLines, List.flatMap_assoc]
  refine List.flatMap_congr fun ls _ => ?_
  rw [List.flatMap_append, List.flatMap_singleton, hQuiet .blank rfl, List.append_nil]

/-- What the lines of a module tell, of whatever quiet lines tell nothing. -/
theorem told_of_moduleLines (g : TaskGraph) (options : ModuleOptions) (imported : List Import)
    (definitions : List (Operator × OperatorCall)) :
    (moduleLines (sectionLines g options imported names definitions)).flatMap tell =
      imported.flatMap (fun i => tell (.imported i)) ++ (headLines options).flatMap tell ++
      definitions.flatMap (fun definition =>
        tell (.definition (.ofText (variableOf names definition.1.id)) definition.2.made) ++
          (argumentLines definition.1 definition.2).flatMap tell) ++
      (relations (definitions.map Prod.fst)).flatMap fun pair => tell (relationOf names pair) := by
  have hParams : (paramsLines g.configuration).flatMap tell = [] :=
    told_of_quiet hQuiet isQuiet_of_mem_paramsLines
  have hDecisions : (remainingDecisions g (definitions.map Prod.fst)).flatMap
      (fun r => (decisionLines r).flatMap tell) = [] :=
    List.flatMap_eq_nil_iff.mpr fun r _ => told_of_quiet hQuiet isQuiet_of_mem_decisionLines
  rw [told_of_sections hQuiet]
  unfold sectionLines
  simp only [List.flatMap_append, List.flatMap_cons, List.flatMap_nil, List.flatMap_map,
    hQuiet (.title _) rfl, hParams, told_of_definitionLines hQuiet, hDecisions,
    told_of_relationSection, told_of_passSection hQuiet, List.append_nil, List.nil_append]

end Told

section Names

variable {g : TaskGraph} {options : ModuleOptions} {imported : List Import}
  {names : List (String × String)} {definitions : List (Operator × OperatorCall)}

theorem imports_moduleLines :
    (moduleLines (sectionLines g options imported names definitions)).flatMap ModuleLine.imports =
      imported := by
  rw [told_of_moduleLines fun _ => ModuleLine.imports_of_isQuiet]
  simp only [headLines, argumentLines, relationOf, ModuleLine.imports, List.flatMap_append,
    List.flatMap_cons, List.flatMap_nil, List.flatMap_map, flatMap_const_nil, List.append_nil]
  exact List.flatMap_singleton' imported

theorem defines_moduleLines :
    (moduleLines (sectionLines g options imported names definitions)).flatMap ModuleLine.defines =
      (definitions.map Prod.fst).map fun o => .ofText (variableOf names o.id) := by
  rw [told_of_moduleLines fun _ => ModuleLine.defines_of_isQuiet]
  simp only [headLines, argumentLines, relationOf, ModuleLine.defines, List.flatMap_append,
    List.flatMap_cons, List.flatMap_nil, List.flatMap_map, flatMap_const_nil, List.append_nil,
    List.nil_append, List.map_map]
  exact List.map_eq_flatMap.symm

theorem relates_moduleLines :
    (moduleLines (sectionLines g options imported names definitions)).flatMap ModuleLine.relates =
      (relations (definitions.map Prod.fst)).map fun pair =>
        (.ofText (variableOf names pair.1.id), .ofText (variableOf names pair.2.id)) := by
  rw [told_of_moduleLines fun _ => ModuleLine.relates_of_isQuiet]
  simp only [headLines, argumentLines, relationOf, ModuleLine.relates, List.flatMap_append,
    List.flatMap_cons, List.flatMap_nil, List.flatMap_map, flatMap_const_nil, List.append_nil,
    List.nil_append]
  exact List.map_eq_flatMap.symm

theorem mem_imports {order : List Operator} {scheduled : Bool} {i : Import} :
    i ∈ imports order scheduled ↔ i = .models ∨ i = .dates ∨ (i = .datetime ∧ scheduled = true) ∨
      ∃ o ∈ order, i ∈ o.imports := by
  have hAll : i ∈ Import.all := by cases i <;> decide
  simp [imports, hAll, or_assoc]

theorem references_headLines :
    (headLines options).flatMap ModuleLine.references ⊆
      imports (definitions.map Prod.fst) options.scheduleIntervalDays.isPositive := by
  intro i hi
  rw [mem_imports]
  cases hScheduled : options.scheduleIntervalDays.isPositive <;>
    simp [headLines, ModuleLine.references, hScheduled] at hi <;> tauto

theorem references_moduleLines
    (hReferences : ∀ definition ∈ definitions, definition.2.references ⊆ definition.1.imports) :
    (moduleLines (sectionLines g options imported names definitions)).flatMap
      ModuleLine.references ⊆
        imports (definitions.map Prod.fst) options.scheduleIntervalDays.isPositive := by
  have hCall (name : Identifier) (o : Operator) (c : OperatorCall) :
      (ModuleLine.definition name c.made).references ++
        (argumentLines o c).flatMap ModuleLine.references = c.references := by
    simp [argumentLines, ModuleLine.references, ArgumentValue.references, OperatorCall.references,
      List.flatMap_map]
  have hImports : imported.flatMap (fun i => (ModuleLine.imported i).references) = [] :=
    flatMap_const_nil imported
  have hRelations : (relations (definitions.map Prod.fst)).flatMap
      (fun pair => (relationOf names pair).references) = [] := flatMap_const_nil _
  rw [told_of_moduleLines fun _ => ModuleLine.references_of_isQuiet, hImports, hRelations,
    List.nil_append, List.append_nil]
  refine List.append_subset.mpr ⟨references_headLines, fun i hi => ?_⟩
  obtain ⟨definition, hDefinition, hOwn⟩ := List.mem_flatMap.mp hi
  rw [hCall] at hOwn
  exact mem_imports.mpr (Or.inr (Or.inr (Or.inr
    ⟨definition.1, List.mem_map_of_mem hDefinition, hReferences definition hDefinition hOwn⟩)))

end Names

/-- The pairs of operators of which the second waits on the first, each once, by the places of the
first and then of the second. -/
structure RelationsOf (order : List Operator) (pairs : List (Operator × Operator)) : Prop where
  mem_iff : ∀ u v, (u, v) ∈ pairs ↔ u ∈ order ∧ v ∈ order ∧ u.id ∈ v.predecessors
  /-- Whatever an operator waits on is an operator as well. -/
  complete : ∀ v ∈ order, ∀ id ∈ v.predecessors, ∃ u, u.id = id ∧ (u, v) ∈ pairs
  once : pairs.Nodup
  sorted : pairs.Pairwise fun p q => order.idxOf p.1 < order.idxOf q.1 ∨
    p.1 = q.1 ∧ order.idxOf p.2 < order.idxOf q.2
  before : ∀ u v, (u, v) ∈ pairs → order.idxOf u < order.idxOf v

theorem relationsOf_relations {order : List Operator} (hNamed : Layout.Named order) :
    RelationsOf order (relations order) := by
  have hDistinct : order.Nodup := hNamed.distinct.of_map
  have hPlaces := pairwise_idxOf hDistinct
  have hBefore : ∀ v ∈ order, ∀ id ∈ v.predecessors,
      ∃ u ∈ order, u.id = id ∧ order.idxOf u < order.idxOf v := by
    intro v hMem id hId
    exact (hNamed.inOrder.exists_before hDistinct v hMem id hId).resolve_left List.not_mem_nil
  have hSorted : (relations order).Pairwise fun p q => order.idxOf p.1 < order.idxOf q.1 ∨
      p.1 = q.1 ∧ order.idxOf p.2 < order.idxOf q.2 := by
    -- Pairs with one first operator are in the order of the second; the others follow the first.
    refine List.pairwise_flatMap.mpr ⟨fun first _ => ?_, hPlaces.imp ?_⟩
    · refine List.pairwise_map.mpr ((hPlaces.filter _).imp ?_)
      exact fun hLess => Or.inr ⟨rfl, hLess⟩
    · intro first first' hLess p hp q hq
      obtain ⟨second, -, rfl⟩ := List.mem_map.mp hp
      obtain ⟨second', -, rfl⟩ := List.mem_map.mp hq
      exact Or.inl hLess
  refine ⟨fun u v => mem_relations, ?_, ?_, hSorted, ?_⟩
  · intro v hMem id hId
    obtain ⟨u, hu, rfl, -⟩ := hBefore v hMem id hId
    exact ⟨u, rfl, mem_relations.mpr ⟨hu, hMem, hId⟩⟩
  · refine hSorted.imp fun hAhead hSame => ?_
    subst hSame
    omega
  · intro u v hPair
    obtain ⟨hu, hv, hWaits⟩ := mem_relations.mp hPair
    -- The operator in front with this id is the first of the pair, since ids are distinct.
    obtain ⟨u', hu', hSame, hLess⟩ := hBefore v hv u.id hWaits
    rwa [← List.inj_on_of_nodup_map hNamed.distinct hu' hu hSame]

/-- The lines name the operators of a layout consistently. -/
structure NamedConsistently (ls : List ModuleLine) (order : List Operator)
    (name : Operator → Identifier) : Prop where
  /-- The operators are defined in order, each under its name. -/
  defines : ls.flatMap ModuleLine.defines = order.map name
  /-- The id of an operator stands in its definition. -/
  ids : ∀ o ∈ order, ∃ made, [.definition (name o) made,
    .argument ⟨"task_id", by decide⟩ (.literal (.ofText o.id))] <:+: ls
  distinct : (order.map name).Nodup
  notReserved : ∀ o ∈ order, (name o).text ∉ keywords ++ builtins ++ ["dag", "PARAMS"]
  notImported : ∀ o ∈ order, (name o).text ∉ (ls.flatMap ModuleLine.imports).map Import.name
  /-- Whatever is referred to is imported. -/
  imported : ls.flatMap ModuleLine.references ⊆ ls.flatMap ModuleLine.imports
  /-- The relations are those of the operators. -/
  relates : ∃ pairs, RelationsOf order pairs ∧
    ls.flatMap ModuleLine.relates = pairs.map fun pair => (name pair.1, name pair.2)

/-- The variable of an operator as an identifier. -/
def variableName (order : List Operator) (imported : List Import) (o : Operator) : Identifier :=
  .ofText (variableOf (operatorNames order imported) o.id)

theorem map_variableName {order : List Operator} (hNamed : Layout.Named order)
    (imported : List Import) :
    (order.map (variableName order imported)).map Identifier.text =
      operatorVariables order imported := by
  rw [List.map_map]
  refine List.map_congr_left fun o hMem => Identifier.text_ofText ?_
  exact (namedApart_operatorVariables hNamed imported).identifiers _ (List.mem_map_of_mem hMem)

theorem infix_moduleLines {sections : List (List ModuleLine)} {ls : List ModuleLine}
    (hMem : ls ∈ sections) : ls <:+: moduleLines sections := by
  have hSection : ls ++ [.blank] <:+: moduleLines sections :=
    List.infix_of_mem_flatten (List.mem_map_of_mem hMem)
  exact (List.prefix_append ls [.blank]).isInfix.trans hSection

/-- The line that defines an operator is followed by the one with its id. -/
theorem definition_infix {g : TaskGraph} {options : ModuleOptions} {imported : List Import}
    {names : List (String × String)} {definitions : List (Operator × OperatorCall)}
    {definition : Operator × OperatorCall} (hMem : definition ∈ definitions) :
    [.definition (.ofText (variableOf names definition.1.id)) definition.2.made,
      .argument ⟨"task_id", by decide⟩ (.literal (.ofText definition.1.id))] <:+:
        moduleLines (sectionLines g options imported names definitions) := by
  have hSection : definitionLines names definition.1 definition.2 ∈
      sectionLines g options imported names definitions := by
    have hOwn : definitionLines names definition.1 definition.2 ∈
        definitions.map fun other => definitionLines names other.1 other.2 :=
      List.mem_map.mpr ⟨definition, hMem, rfl⟩
    simp only [sectionLines, List.mem_append]
    tauto
  refine List.IsInfix.trans ?_ (infix_moduleLines hSection)
  exact ⟨commentLines definition.1, _, List.append_assoc _ _ _⟩

theorem Written.consistent {g : TaskGraph} {options : ModuleOptions} {text : String}
    {imported : List Import} {definitions : List (Operator × OperatorCall)}
    (hWritten : Written g options text imported definitions) :
    NamedConsistently
      (moduleLines (sectionLines g options imported
        (operatorNames (definitions.map Prod.fst) imported) definitions))
      (definitions.map Prod.fst) (variableName (definitions.map Prod.fst) imported) := by
  have hApart := namedApart_operatorVariables hWritten.named imported
  rw [← map_variableName hWritten.named imported] at hApart
  have hFree : ∀ o ∈ definitions.map Prod.fst,
      (variableName (definitions.map Prod.fst) imported o).text ∉ takenNames imported :=
    fun o hMem => hApart.free _ (List.mem_map_of_mem (List.mem_map_of_mem hMem))
  refine ⟨defines_moduleLines, ?_, hApart.distinct.of_map, ?_, ?_, ?_, ?_⟩
  · intro o hMem
    obtain ⟨definition, hDefinition, rfl⟩ := List.mem_map.mp hMem
    exact ⟨definition.2.made, definition_infix hDefinition⟩
  · intro o hMem hReserved
    refine hFree o hMem ?_
    simp only [takenNames, List.mem_append] at hReserved ⊢
    tauto
  · intro o hMem hImported
    rw [imports_moduleLines] at hImported
    refine hFree o hMem ?_
    simp only [takenNames, List.mem_append]
    tauto
  · rw [imports_moduleLines, ← hWritten.imports]
    exact references_moduleLines hWritten.references
  · exact ⟨_, relationsOf_relations hWritten.named, relates_moduleLines⟩

end DagModule

/-- The lines of a module can be read in one way, and so read they name the operators of the layout
consistently. -/
theorem names_are_consistent {source : String} {options : ConversionOptions} {c : Conversion}
    (hConvert : (convert source options).result = .ok c) :
    ∃ ls order name, c.graph.layout = .ok order ∧
      (∀ others : List ModuleLine, others.map ModuleLine.write = Text.lines c.text ↔ others = ls) ∧
      DagModule.NamedConsistently ls order name := by
  obtain ⟨imported, definitions, hWritten⟩ := DagModule.exists_written_of_convert hConvert
  refine ⟨_, _, _, hWritten.layout, fun others => ?_, hWritten.consistent⟩
  rw [hWritten.lines]
  exact (List.map_injective_iff.mpr ModuleLine.write_injective).eq_iff

namespace ReservedNames

/-- The units of a document whose nodes are named like a keyword, an import, a variable of another
node and the DAG. -/
def units : List Char :=
  ["<w name='w'>",
    "<start to='class'/>",
    "<action name='class'><pig><script>s</script></pig><ok to='models'/><error to='dag'/></action>",
    "<action name='models'><ssh><host>u@h</host><command>c</command></ssh>",
    "<ok to='class_task'/><error to='dag'/></action>",
    "<action name='class_task'><fs/><ok to='e'/><error to='dag'/></action>",
    "<kill name='dag'><message>m</message></kill>",
    "<end name='e'/>",
    "</w>"].flatMap String.toList

/-- The document with these units. -/
def source : String :=
  String.ofList units

/-- Options with a schedule. -/
def options : ConversionOptions where
  transform := {}
  dag := { scheduleIntervalDays := .ofNat 1 }

/-- The workflow of the document. -/
def workflow : Workflow where
  name := "w"
  nodes :=
    [.start "class",
      .action
        { name := "class"
          actionType := "pig"
          payload := [{ tag := "script", text := "s" }]
          ok := "models"
          error := "dag" },
      .action
        { name := "models"
          actionType := "ssh"
          payload := [{ tag := "host", text := "u@h" }, { tag := "command", text := "c" }]
          ok := "class_task"
          error := "dag" },
      .action
        { name := "class_task"
          actionType := "fs"
          payload := []
          ok := "e"
          error := "dag" },
      .kill "dag" "m",
      .finish "e"]
  closingJoins := []
  defaults := .empty

theorem read_source : (Workflow.read source).result = .ok workflow :=
  Workflow.read_ofList (by decide +kernel)

theorem convert_isOk : (convert source options).result.isOk = true := by
  rw [convert_of_read _ read_source]
  decide +kernel

end ReservedNames

theorem names_are_consistent_reservedNames :
    ∃ c, (convert ReservedNames.source ReservedNames.options).result = .ok c ∧
      ∃ ls order name, c.graph.layout = .ok order ∧
        (∀ others : List ModuleLine,
          others.map ModuleLine.write = Text.lines c.text ↔ others = ls) ∧
        DagModule.NamedConsistently ls order name := by
  obtain ⟨c, hConvert⟩ := exists_ok_of_isOk ReservedNames.convert_isOk
  exact ⟨c, hConvert, names_are_consistent hConvert⟩

end WorkflowDag
