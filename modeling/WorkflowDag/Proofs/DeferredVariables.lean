import WorkflowDag.Conversion
import WorkflowDag.Proofs.DependencyPaths
import WorkflowDag.Proofs.EvaluationFaults
import WorkflowDag.Proofs.ParallelWalks
import WorkflowDag.Proofs.ScopeAgreement

/-!
# Leaving variables to the running DAG

A variable without a value is an error, or it is deferred: then a placeholder stands for it.  The
two conversions of a document are compared step by step.  They differ only where a task is made of a
text that mentions such a variable, and there the first one has failed; guards are never deferred.

Main statement: `deferral_is_conservative`.
-/

namespace WorkflowDag

namespace Template

/-- A variable stands in the text, alone between its braces. -/
def Mentions (text variableName : String) : Prop :=
  ∃ segments source, read text = .ok segments ∧
    Segment.expression source (.reference variableName) ∈ segments

/-- What is wrong is that a variable in one of the texts has no value. -/
def Misses (scope : Scope) (texts : List String) (cause : EvalError) : Prop :=
  ∃ variableName, cause = .unresolved variableName ∧
    scope.definitions.get? variableName = none ∧ ∃ text ∈ texts, Mentions text variableName

section

variable {scope scope' : Scope}

theorem evalSegment_alike (hAgrees : scope.Agrees scope') (hError : scope.unresolved = .error)
    (hDefer : scope'.unresolved = .defer) {texts : List String} {segment : Segment}
    (hMentions : ∀ source variableName, segment = .expression source (.reference variableName) →
      ∃ text ∈ texts, Mentions text variableName) :
    Alike (Misses scope texts) Eq (evalSegment scope segment) (evalSegment scope' segment) := by
  cases segment with
  | plain text => exact .of_eq rfl
  | expression source parsed =>
      have hValue : (parsed.eval scope).map Value.shown = (parsed.eval scope').map Value.shown := by
        rw [Expression.eval_congr hAgrees]
      cases parsed with
      | literal value => exact .of_eq hValue
      | call name arguments => exact .of_eq hValue
      | compare op left right => exact .of_eq hValue
      | reference name =>
          have hStrict : evalSegment scope (.expression source (.reference name)) =
              (Expression.eval scope (.reference name)).map Value.shown := by
            simp [evalSegment, hError]
          rw [hStrict]
          simp only [evalSegment, hDefer, true_and]
          split
          next hNone =>
            -- The second run defers the variable, and the first fails by it.
            have hLookup : scope.lookup? name = none := by
              rw [hAgrees.lookup?]
              exact Option.isNone_iff_eq_none.mp hNone
            have hFails : Expression.eval scope (.reference name) = .error (.unresolved name) := by
              simp [Expression.eval, Scope.lookup, hLookup]
            rw [hFails]
            refine .broken _ ⟨name, rfl, ?_, hMentions source name rfl⟩
            unfold Scope.lookup? at hLookup
            split at hLookup
            · cases hLookup
            next hAbsent => exact hAbsent
          next => exact .of_eq hValue

theorem evalSegments_alike (hAgrees : scope.Agrees scope') (hError : scope.unresolved = .error)
    (hDefer : scope'.unresolved = .defer) {texts : List String} {segments : List Segment}
    (hMentions : ∀ source variableName,
      Segment.expression source (.reference variableName) ∈ segments →
      ∃ text ∈ texts, Mentions text variableName) :
    Alike (Misses scope texts) Eq (evalSegments scope segments) (evalSegments scope' segments) := by
  induction segments with
  | nil => exact .of_eq rfl
  | cons segment rest ih =>
      have hFirst : Alike (Misses scope texts) Eq (evalSegment scope segment)
          (evalSegment scope' segment) := by
        refine evalSegment_alike hAgrees hError hDefer fun source name hSegment => ?_
        exact hMentions source name (hSegment ▸ List.mem_cons_self)
      have hRest := ih fun source name hSegment =>
        hMentions source name (List.mem_cons_of_mem segment hSegment)
      refine hFirst.bind fun first first' hSame => hRest.bind fun others others' hOthers => ?_
      exact .of_eq (by rw [hSame, hOthers])

theorem interpolate_alike (hAgrees : scope.Agrees scope') (hError : scope.unresolved = .error)
    (hDefer : scope'.unresolved = .defer) {texts : List String} {text : String}
    (hText : text ∈ texts) :
    Alike (Misses scope texts) Eq (interpolate scope text) (interpolate scope' text) := by
  unfold interpolate
  split
  · cases hRead : read text with
    | error cause => exact .failed cause
    | ok segments =>
        refine evalSegments_alike hAgrees hError hDefer fun source name hSegment => ?_
        exact ⟨text, hText, segments, source, hRead, hSegment⟩
  · exact .of_eq rfl

end
end Template

section Resolving

variable {Breaks : EvalError → Prop} {f g : String → Except EvalError String}

theorem resolveEach_alike {α : Type} {one other : α → Except EvalError α} {items : List α}
    (hItems : ∀ item ∈ items, Alike Breaks Eq (one item) (other item)) :
    Alike Breaks Eq (resolveEach one items) (resolveEach other items) := by
  induction items with
  | nil => exact .of_eq rfl
  | cons item rest ih =>
      have hRest := ih fun item' hItem => hItems item' (List.mem_cons_of_mem item hItem)
      refine (hItems item List.mem_cons_self).bind fun first first' hFirst => ?_
      exact hRest.bind fun others others' hOthers => .of_eq (by rw [hFirst, hOthers])

theorem resolveEntries_alike {entries : List (String × String)}
    (hTexts : ∀ text ∈ entries.map Prod.snd, Alike Breaks Eq (f text) (g text)) :
    Alike Breaks Eq (resolveEach (resolveEntry f) entries)
      (resolveEach (resolveEntry g) entries) := by
  refine resolveEach_alike fun entry hEntry => ?_
  exact (hTexts entry.2 (List.mem_map_of_mem hEntry)).map fun value value' hSame => by rw [hSame]

mutual

theorem resolveElement_alike (e : Element)
    (hTexts : ∀ text ∈ e.texts, Alike Breaks Eq (f text) (g text)) :
    Alike Breaks Eq (resolveElement f e) (resolveElement g e) := by
  cases e with
  | mk tag attributes text children =>
      rw [Element.texts] at hTexts
      rw [resolveElement, resolveElement]
      have hAttributes := resolveEntries_alike fun value hValue =>
        hTexts value (List.mem_cons_of_mem _ (List.mem_append_left _ hValue))
      have hChildren := resolveElements_alike children fun below hBelow =>
        hTexts below (List.mem_cons_of_mem _ (List.mem_append_right _ hBelow))
      refine (hTexts text List.mem_cons_self).bind fun _ _ hText => ?_
      refine hAttributes.bind fun _ _ hAttributes => hChildren.bind fun _ _ hChildren => ?_
      exact .of_eq (by rw [hText, hAttributes, hChildren])

theorem resolveElements_alike (elements : List Element)
    (hTexts : ∀ text ∈ Element.textsOfAll elements, Alike Breaks Eq (f text) (g text)) :
    Alike Breaks Eq (resolveElements f elements) (resolveElements g elements) := by
  cases elements with
  | nil => exact .of_eq (by rw [resolveElements, resolveElements])
  | cons e rest =>
      rw [Element.textsOfAll] at hTexts
      rw [resolveElements, resolveElements]
      have hFirst := resolveElement_alike e fun text hText =>
        hTexts text (List.mem_append_left _ hText)
      have hRest := resolveElements_alike rest fun text hText =>
        hTexts text (List.mem_append_right _ hText)
      refine hFirst.bind fun _ _ hFirst => hRest.bind fun _ _ hRest => ?_
      exact .of_eq (by rw [hFirst, hRest])

end

/-- The texts of an action are resolved alike when each of them is. -/
theorem resolveDetails_alike {a : Action}
    (hTexts : ∀ text ∈ a.texts, Alike Breaks Eq (f text) (g text)) :
    Alike Breaks Eq (resolveDetails f a) (resolveDetails g a) := by
  simp only [Action.texts, List.mem_append] at hTexts
  have hPrepare : Alike Breaks Eq (resolveEach (resolvePreparation f) a.prepare)
      (resolveEach (resolvePreparation g) a.prepare) := by
    refine resolveEach_alike fun step hStep => ?_
    exact (hTexts step.path (.inl (List.mem_map_of_mem hStep))).map fun _ _ hSame => by rw [hSame]
  have hConfiguration := resolveEntries_alike fun text hText => hTexts text (.inr (.inl hText))
  have hFiles := resolveEach_alike fun text hText => hTexts text (.inr (.inr (.inl hText)))
  have hArchives := resolveEach_alike fun text hText =>
    hTexts text (.inr (.inr (.inr (.inl hText))))
  have hPayload := resolveElements_alike a.payload fun text hText =>
    hTexts text (.inr (.inr (.inr (.inr hText))))
  unfold resolveDetails
  refine hPrepare.bind fun _ _ hPrepare => hConfiguration.bind fun _ _ hConfiguration => ?_
  refine hFiles.bind fun _ _ hFiles => hArchives.bind fun _ _ hArchives => ?_
  refine hPayload.bind fun _ _ hPayload => .of_eq ?_
  rw [hPrepare, hConfiguration, hFiles, hArchives, hPayload]

end Resolving

namespace Walk

/-- What is wrong is that a variable without a value stands in the texts of a node with a task. -/
def MissesVariable (w : Workflow) (configuration : Record) (e : Error) : Prop :=
  ∃ node ∈ w.nodes, (node.kind = .action ∨ node.kind = .kill) ∧ ∃ variableName,
    e = .evaluation (.unresolved variableName) (some node.name) ∧
    configuration.get? variableName = none ∧
    ∃ text ∈ node.texts, Template.Mentions text variableName

section

variable {w : Workflow} {scope scope' : Scope}

theorem bodyOf_alike (hAgrees : scope.Agrees scope') (hError : scope.unresolved = .error)
    (hDefer : scope'.unresolved = .defer) {node : Node} {owner : Owner} (hNode : node ∈ w.nodes)
    (hOwner : Owner.ofNode? node = some owner) :
    Alike (MissesVariable w scope.definitions) Eq (bodyOf scope owner) (bodyOf scope' owner) := by
  have hTexts : ∀ text ∈ node.texts, Alike (Template.Misses scope node.texts) Eq
      (Template.interpolate scope text) (Template.interpolate scope' text) :=
    fun text hText => Template.interpolate_alike hAgrees hError hDefer hText
  have hLabel : (node.kind = .action ∨ node.kind = .kill) → ∀ cause,
      Template.Misses scope node.texts cause →
        MissesVariable w scope.definitions (.evaluation cause (some node.name)) := by
    rintro hKind cause ⟨variableName, rfl, hAbsent, hMentions⟩
    exact ⟨node, hNode, hKind, variableName, rfl, hAbsent, hMentions⟩
  cases node with
  | action a =>
      cases hOwner
      have hDetails := resolveDetails_alike hTexts
      exact (hDetails.mapError (hLabel (Or.inl rfl))).map fun _ _ hSame => by rw [hSame]
  | kill killName message =>
      cases hOwner
      have hMessage := hTexts message (List.mem_singleton.mpr rfl)
      exact (hMessage.mapError (hLabel (Or.inr rfl))).map fun _ _ hSame => by rw [hSame]
  | start target => cases hOwner
  | decision d => cases hOwner
  | fork f => cases hOwner
  | join joinName target => cases hOwner
  | finish endName => cases hOwner

end
end Walk

/-- The options with another treatment of variables that have no value. -/
def TaskOptions.withUnresolved (options : TaskOptions) (unresolved : Unresolved) : TaskOptions :=
  { options with unresolved }

/-- The tasks of a workflow are the same whether variables are deferred or not, unless one has no
value. -/
theorem Walk.ofWorkflow_alike_defer (w : Workflow) (options : TaskOptions) :
    Alike (MissesVariable w (scopeOf w options).definitions) Eq
      (TaskGraph.ofWorkflow w (options.withUnresolved .error)).result
      (TaskGraph.ofWorkflow w (options.withUnresolved .defer)).result := by
  have hAgrees : (scopeOf w (options.withUnresolved .error)).Agrees
      (scopeOf w (options.withUnresolved .defer)) := ⟨fun _ => rfl, rfl⟩
  have hParallel : Parallel w w (options.withUnresolved .error) (options.withUnresolved .defer)
      (scopeOf w (options.withUnresolved .error)) (scopeOf w (options.withUnresolved .defer))
      (fun _ => True) (MissesVariable w (scopeOf w options).definitions) Eq :=
    { find? := fun _ => rfl
      closing? := fun _ _ => rfl
      target := fun _ _ => trivial
      join := fun _ _ _ => trivial
      body := fun _ hFind hOwner =>
        bodyOf_alike hAgrees rfl rfl (List.mem_of_find?_eq_some hFind) hOwner
      decision := fun _ _ => .of_eq (resolveDecision_congr hAgrees rfl _)
      named := fun hSame => by rw [hSame] }
  refine (ofWorkflow_alike hParallel trivial rfl).mono (fun _ hMisses => hMisses) ?_
  rintro g g' ⟨hGraph, hGraph', hDecisions⟩
  rw [List.forall₂_eq_eq_eq] at hDecisions
  rw [hGraph, hGraph', hDecisions]
  rfl

/-- The options with another treatment of variables that have no value. -/
def ConversionOptions.withUnresolved (options : ConversionOptions) (unresolved : Unresolved) :
    ConversionOptions :=
  { options with transform := options.transform.withUnresolved unresolved }

/-- A document is converted alike whether variables are deferred or not, unless one has no value. -/
theorem convert_alike_defer (source : String) (options : ConversionOptions) :
    Alike (fun e => ∃ w, (Workflow.read source).result = .ok w ∧
        Walk.MissesVariable w (w.defaults.merge options.transform.configuration) e) Eq
      (convert source (options.withUnresolved .error)).result
      (convert source (options.withUnresolved .defer)).result := by
  unfold convert
  simp only [Traced.result_bind, Traced.result_within]
  cases hRead : (Workflow.read source).result with
  | error e => exact .failed e
  | ok w =>
      simp only [ok_bind]
      refine Alike.bind ((Walk.ofWorkflow_alike_defer w options.transform).mono ?_ fun _ _ => id)
        fun g g' hSame => .of_eq ?_
      · exact fun e hMisses => ⟨w, rfl, hMisses⟩
      · rw [hSame]
        rfl

/-- Deferring variables changes nothing where the conversion succeeds without it.  Where only the
deferring conversion succeeds, the other has failed at an action or a kill, in one of whose texts a
variable stands that has no entry in the configuration.  Guards are not deferred: the decisions are
those of the guards evaluated without deferring. -/
theorem deferral_is_conservative (source : String) (options : ConversionOptions) :
    (∀ c, (convert source (options.withUnresolved .error)).result = .ok c →
      (convert source (options.withUnresolved .defer)).result = .ok c) ∧
    (∀ c e, (convert source (options.withUnresolved .defer)).result = .ok c →
      (convert source (options.withUnresolved .error)).result = .error e →
      Walk.MissesVariable c.workflow c.graph.configuration e) ∧
    ∀ c, (convert source (options.withUnresolved .defer)).result = .ok c →
      ∀ record ∈ c.graph.decisions, ∃ d,
        Workflow.find? c.workflow.nodes record.decision = some (.decision d) ∧
        Walk.resolveDecision (options.transform.withUnresolved .error)
          (Walk.scopeOf c.workflow (options.transform.withUnresolved .error)) d = .ok record := by
  have hAlike := convert_alike_defer source options
  refine ⟨?_, ?_, ?_⟩
  · intro c hError
    rw [hError] at hAlike
    exact hAlike.eq_ok
  · intro c e hDefer hError
    obtain ⟨hRead, hGraph, -⟩ := convert_eq_ok_iff.mp hDefer
    rw [hError, hDefer] at hAlike
    obtain ⟨w, hRead', hMisses⟩ := hAlike.breaks
    cases hRead'.symm.trans hRead
    obtain ⟨s, -, hSame⟩ := Walk.exists_walked_of_ofWorkflow hGraph
    rw [hSame]
    exact hMisses
  · intro c hDefer record hRecord
    obtain ⟨hRead, hGraph, -⟩ := convert_eq_ok_iff.mp hDefer
    have hTransformed := Transformed.of_ofWorkflow (Workflow.checked_of_read hRead) hGraph
    exact hTransformed.resolved record hRecord

namespace ScriptVariable

/-- The flag has a value and the script has none. -/
theorem convert_isOk_defer :
    (convert source ((options [("flag", "true")]).withUnresolved .defer)).result.isOk = true := by
  rw [convert_of_read _ read_source]
  decide +kernel

theorem convert_isOk_error :
    (convert source ((options [("flag", "true")]).withUnresolved .error)).result.isOk = false := by
  rw [convert_of_read _ read_source]
  decide +kernel

theorem convert_isOk_defined :
    (convert source ((options [("flag", "true"), ("script", "s.pig")]).withUnresolved
      .error)).result.isOk = true := by
  rw [convert_of_read _ read_source]
  decide +kernel

end ScriptVariable

open ScriptVariable in
/-- A script without a value makes the conversions differ, one with a value does not. -/
theorem deferral_is_conservative_script :
    (∃ c e, (convert source ((options [("flag", "true")]).withUnresolved .defer)).result = .ok c ∧
      (convert source ((options [("flag", "true")]).withUnresolved .error)).result = .error e ∧
      Walk.MissesVariable c.workflow c.graph.configuration e) ∧
    ∃ c, (convert source ((options [("flag", "true"), ("script", "s.pig")]).withUnresolved
        .error)).result = .ok c ∧
      (convert source ((options [("flag", "true"), ("script", "s.pig")]).withUnresolved
        .defer)).result = .ok c := by
  constructor
  · obtain ⟨c, hDefer⟩ := exists_ok_of_isOk convert_isOk_defer
    obtain ⟨e, hError⟩ := exists_error_of_isOk convert_isOk_error
    refine ⟨c, e, hDefer, hError, ?_⟩
    exact (deferral_is_conservative source (options [("flag", "true")])).2.1 c e hDefer hError
  · obtain ⟨c, hError⟩ := exists_ok_of_isOk convert_isOk_defined
    refine ⟨c, hError, ?_⟩
    exact (deferral_is_conservative source (options [("flag", "true"), ("script", "s.pig")])).1 c
      hError

end WorkflowDag
