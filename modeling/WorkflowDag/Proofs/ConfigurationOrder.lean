import WorkflowDag.Proofs.ParallelWalks
import WorkflowDag.Proofs.Records
import WorkflowDag.Proofs.ScopeAgreement

/-!
# The order of the configuration

A conversion is told a configuration, which is merged with the defaults of the document.  The result
is asked for the values of names and written as a dictionary with sorted names, so neither depends
on the order in which the entries of the configuration were written.

Main statement: `configuration_order_irrelevant`.
-/

namespace WorkflowDag

namespace Workflow

theorem nodup_readDefaults (e : Element) : (readDefaults e).names.Nodup := by
  unfold readDefaults
  have hEmpty : Record.empty.names.Nodup := List.nodup_nil
  generalize Record.empty = r at hEmpty ⊢
  induction e.childrenWithTag "property" generalizing r with
  | nil => exact hEmpty
  | cons property rest ih =>
      refine ih _ ?_
      dsimp only
      split
      · split
        · exact hEmpty
        · exact Record.nodup_assign hEmpty
      · exact hEmpty

/-- The defaults of a document repeat no name. -/
theorem nodup_defaults_of_read {source : String} {w : Workflow}
    (hRead : (read source).result = .ok w) : w.defaults.names.Nodup := by
  obtain ⟨root, -, -, hSections, -⟩ := read_ok_iff.mp hRead
  have hAdd : ∀ (s s' : Sections) (e : Element), s.defaults.names.Nodup → s.add e = .ok s' →
      s'.defaults.names.Nodup := by
    intro s s' e hNames hAdd
    rcases Sections.add_cases hAdd with ⟨-, rfl⟩ | ⟨-, -, rfl⟩ | ⟨-, -, node, -, -, rfl⟩
    · exact nodup_readDefaults e
    · exact hNames
    · exact hNames
  exact readSections_induction hAdd root.children {} _ List.nodup_nil hSections

end Workflow

section Emission

variable {g g' : TaskGraph}

theorem Wiring.planBranches_congr (hDecisions : g.decisions = g'.decisions)
    (decisions : List String) :
    ∀ taken, planBranches g taken decisions = planBranches g' taken decisions := by
  induction decisions with
  | nil => exact fun taken => rfl
  | cons decision rest ih =>
      intro taken
      rw [planBranches, planBranches, TaskGraph.recordOf?, TaskGraph.recordOf?, hDecisions]
      simp only [ih]

theorem Wiring.wireBranches_congr (hTasks : g.tasks = g'.tasks) (plans rest : List BranchPlan) :
    ∀ d, wireBranches g plans d rest = wireBranches g' plans d rest := by
  induction rest with
  | nil => exact fun d => rfl
  | cons plan rest ih =>
      intro d
      rw [wireBranches, wireBranches, TaskGraph.signalsInto, TaskGraph.signalsInto,
        TaskGraph.passages, TaskGraph.passages, hTasks]
      simp only [ih]

/-- Operators are made of tasks and decisions alone. -/
theorem TaskGraph.layout_congr (hTasks : g.tasks = g'.tasks)
    (hDecisions : g.decisions = g'.decisions) : g.layout = g'.layout := by
  unfold layout operators passedDecisions passages
  simp only [Wiring.planBranches_congr hDecisions, Wiring.wireBranches_congr hTasks, hTasks]

/-- Besides them a module holds the name of the workflow and the configuration as a dictionary. -/
theorem TaskGraph.emit_congr (hWorkflow : g.workflow = g'.workflow) (hTasks : g.tasks = g'.tasks)
    (hDecisions : g.decisions = g'.decisions)
    (hParams : Literal.dict "" g.configuration = Literal.dict "" g'.configuration)
    (options : ModuleOptions) : g.emit options = g'.emit options := by
  unfold emit DagModule.sections DagModule.remainingDecisions
  simp only [layout_congr hTasks hDecisions, hWorkflow, hDecisions, hParams]

end Emission

/-- The options with another configuration. -/
def ConversionOptions.withConfiguration (options : ConversionOptions) (configuration : Record) :
    ConversionOptions :=
  { options with transform := { options.transform with configuration } }

/-- Scopes of a workflow agree when the configurations have the same entries. -/
theorem Walk.scopeOf_agrees {w : Workflow} {options options' : TaskOptions}
    (hNames : options.configuration.names.Nodup)
    (hPerm : options.configuration.entries.Perm options'.configuration.entries) :
    (scopeOf w options).Agrees (scopeOf w options') := by
  have hNames' : options'.configuration.names.Nodup := (hPerm.map Prod.fst).nodup_iff.mp hNames
  refine ⟨fun name => ?_, rfl⟩
  unfold scopeOf
  rw [Record.get?_merge _ _ hNames, Record.get?_merge _ _ hNames',
    Record.get?_eq_of_perm hNames hPerm]

/-- The tasks and decisions are the same. -/
theorem Walk.ofWorkflow_alike_configuration {w : Workflow} {options : TaskOptions}
    {configuration : Record} (hNames : options.configuration.names.Nodup)
    (hPerm : options.configuration.entries.Perm configuration.entries) :
    Alike (fun _ => False) (fun g g' =>
        g' = { g with configuration := w.defaults.merge configuration } ∧
          g.configuration = w.defaults.merge options.configuration)
      (TaskGraph.ofWorkflow w options).result
      (TaskGraph.ofWorkflow w { options with configuration }).result := by
  have hAgrees : (scopeOf w options).Agrees (scopeOf w { options with configuration }) :=
    scopeOf_agrees hNames hPerm
  have hParallel : Parallel w w options { options with configuration } (scopeOf w options)
      (scopeOf w { options with configuration }) (fun _ => True) (fun _ => False) Eq :=
    { find? := fun _ => rfl
      closing? := fun _ _ => rfl
      target := fun _ _ => trivial
      join := fun _ _ _ => trivial
      body := fun _ _ _ => .of_eq (bodyOf_congr hAgrees rfl _)
      decision := fun _ _ => .of_eq (resolveDecision_congr hAgrees rfl _)
      named := fun hSame => by rw [hSame] }
  refine (ofWorkflow_alike hParallel trivial rfl).mono (fun _ => id) ?_
  rintro g g' ⟨hGraph, hGraph', hDecisions⟩
  rw [List.forall₂_eq_eq_eq] at hDecisions
  rw [hGraph', hGraph, hDecisions]
  exact ⟨rfl, rfl⟩

/-- The texts are the same too. -/
theorem convert_alike_configuration (source : String) {options : ConversionOptions}
    {configuration : Record} (hNames : options.transform.configuration.names.Nodup)
    (hPerm : options.transform.configuration.entries.Perm configuration.entries) :
    Alike (fun _ => False) (fun c c' => c'.workflow = c.workflow ∧ c'.text = c.text ∧
        ∃ merged : Record, c'.graph = { c.graph with configuration := merged } ∧
          merged.entries.Perm c.graph.configuration.entries)
      (convert source options).result
      (convert source (options.withConfiguration configuration)).result := by
  unfold convert
  simp only [Traced.result_bind, Traced.result_within]
  cases hRead : (Workflow.read source).result with
  | error e => exact .failed e
  | ok w =>
      have hDefaults := Workflow.nodup_defaults_of_read hRead
      have hMerged : (w.defaults.merge options.transform.configuration).names.Nodup :=
        Record.nodup_merge _ hDefaults
      have hAgrees : (Walk.scopeOf w options.transform).Agrees
          (Walk.scopeOf w (options.withConfiguration configuration).transform) :=
        Walk.scopeOf_agrees hNames hPerm
      have hEntries := Record.perm_of_get?_eq hMerged (Record.nodup_merge configuration hDefaults)
        hAgrees.get?
      refine (Walk.ofWorkflow_alike_configuration hNames hPerm).bind fun g g' hGraphs => ?_
      obtain ⟨rfl, hConfiguration⟩ := hGraphs
      have hEmit : g.emit options.dag =
          { g with configuration := w.defaults.merge configuration }.emit options.dag := by
        apply TaskGraph.emit_congr
        · rfl
        · rfl
        · rfl
        · rw [hConfiguration]
          exact Literal.dict_eq_of_perm hMerged hEntries ""
      rw [hEmit]
      refine (Alike.of_eq rfl).bind fun text text' hText => .returned ⟨rfl, hText.symm, ?_⟩
      refine ⟨_, rfl, ?_⟩
      rw [hConfiguration]
      exact hEntries.symm

/-- A conversion whose configuration has its entries in another order fails with the same error, or
gives the same text, tasks and decisions.  Only the configuration in the graph may have its entries
in another order too. -/
theorem configuration_order_irrelevant (source : String) (options : ConversionOptions)
    (configuration : Record) (hNames : options.transform.configuration.names.Nodup)
    (hPerm : options.transform.configuration.entries.Perm configuration.entries) :
    (∃ e, (convert source options).result = .error e ∧
      (convert source (options.withConfiguration configuration)).result = .error e) ∨
    ∃ c c', (convert source options).result = .ok c ∧
      (convert source (options.withConfiguration configuration)).result = .ok c' ∧
      c'.workflow = c.workflow ∧ c'.text = c.text ∧ c'.graph.workflow = c.graph.workflow ∧
      c'.graph.tasks = c.graph.tasks ∧ c'.graph.decisions = c.graph.decisions ∧
      c'.graph.configuration.entries.Perm c.graph.configuration.entries := by
  have hAlike := convert_alike_configuration source hNames hPerm
  rcases hAlike.failed_or_returned with hFailed | ⟨c, c', hFirst, hSecond, hWorkflow, hText, hGraph⟩
  · exact Or.inl hFailed
  · obtain ⟨merged, hSame, hEntries⟩ := hGraph
    refine Or.inr ⟨c, c', hFirst, hSecond, hWorkflow, hText, ?_⟩
    rw [hSame]
    exact ⟨rfl, rfl, rfl, hEntries⟩

namespace ScriptVariable

/-- The name of the first entry is an index. -/
def entries : List (String × String) :=
  [("7", ""), ("script", "s.pig"), ("flag", "true")]

theorem convert_isOk : (convert source (options entries)).result.isOk = true := by
  rw [convert_of_read _ read_source]
  decide +kernel

end ScriptVariable

open ScriptVariable in
theorem configuration_order_irrelevant_reversed :
    ∃ c c', (convert source (options entries)).result = .ok c ∧
      (convert source ((options entries).withConfiguration ⟨entries.reverse⟩)).result = .ok c' ∧
      c'.text = c.text ∧ c'.graph.tasks = c.graph.tasks := by
  obtain ⟨c, hOk⟩ := exists_ok_of_isOk convert_isOk
  rcases configuration_order_irrelevant source (options entries) ⟨entries.reverse⟩ (by decide)
    (List.reverse_perm entries).symm with
    ⟨e, hError, -⟩ | ⟨c, c', hFirst, hSecond, -, hText, -, hTasks, -⟩
  · cases hOk.symm.trans hError
  · exact ⟨c, c', hFirst, hSecond, hText, hTasks⟩

end WorkflowDag
