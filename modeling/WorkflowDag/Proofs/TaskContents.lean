import WorkflowDag.Proofs.DependencyPaths
import WorkflowDag.Proofs.Records

/-!
# Tasks and the texts of their nodes

The tasks of a workflow stand for the actions and kills that can be reached over transitions of any
kind, one for each.  What a task holds is what its node holds, with every text interpolated:
`BodyResolved` says this of the whole tree of texts, place by place.  Texts are interpolated against
the defaults of parameters, overridden by the configuration given (`Record.get?_merge`).

Main statement: `tasks_are_reachable_nodes`.
-/

namespace WorkflowDag

section Resolved

variable (f : String → Except EvalError String)

/-- The same name with the value of its text. -/
def EntryResolved (entry result : String × String) : Prop :=
  result.1 = entry.1 ∧ f entry.2 = .ok result.2

/-- The same operation on the value of its path. -/
def PreparationResolved (step result : Preparation) : Prop :=
  result.op = step.op ∧ f step.path = .ok result.path

/-- The same element with the values of its text, of its attributes and of all below it. -/
inductive ElementResolved : Element → Element → Prop
  | intro {tag text text' : String} {attributes attributes' : Record}
      {children children' : List Element} (hText : f text = .ok text')
      (hAttributes : List.Forall₂ (EntryResolved f) attributes.entries attributes'.entries)
      (hChildren : List.Forall₂ ElementResolved children children') :
      ElementResolved ⟨tag, attributes, text, children⟩ ⟨tag, attributes', text', children'⟩

/-- The details of an action with the values of its texts, all at their places. -/
structure DetailsResolved (a : Action) (params : ActionDetails) : Prop where
  prepare : List.Forall₂ (PreparationResolved f) a.prepare params.prepare
  configuration : List.Forall₂ (EntryResolved f) a.configuration.entries
    params.configuration.entries
  files : List.Forall₂ (fun text result => f text = .ok result) a.files params.files
  archives : List.Forall₂ (fun text result => f text = .ok result) a.archives params.archives
  payload : List.Forall₂ (ElementResolved f) a.payload params.payload

end Resolved

/-- The template of the task of a node: the type of an action, or that of kills. -/
def Node.template? : Node → Option String
  | .action a => some a.actionType
  | .kill _ _ => some "kill"
  | _ => none

/-- What the task of a node does, with the texts of the node interpolated. -/
inductive BodyResolved (scope : Scope) : Node → TaskBody → Prop
  | action {a : Action} {params : ActionDetails}
      (hDetails : DetailsResolved (Template.interpolate scope) a params) :
      BodyResolved scope (.action a) (.action a.actionType params)
  | kill {name message text : String} (hText : Template.interpolate scope message = .ok text) :
      BodyResolved scope (.kill name message) (.kill text)

theorem BodyResolved.template {scope : Scope} {node : Node} {body : TaskBody}
    (hBody : BodyResolved scope node body) : node.template? = some body.template := by
  cases hBody with
  | action hDetails => rfl
  | kill hText => rfl

section Resolution

variable {f : String → Except EvalError String}

theorem resolveEach_spec {α : Type} {one : α → Except EvalError α} {R : α → α → Prop}
    (hOne : ∀ item result, one item = .ok result → R item result) (items : List α) :
    ∀ results, resolveEach one items = .ok results → List.Forall₂ R items results := by
  induction items with
  | nil =>
      intro results hResolve
      cases hResolve
      exact .nil
  | cons item rest ih =>
      intro results hResolve
      obtain ⟨first, hFirst, hResolve⟩ := bind_eq_ok_iff.mp hResolve
      obtain ⟨others, hOthers, hResolve⟩ := bind_eq_ok_iff.mp hResolve
      cases hResolve
      exact .cons (hOne item first hFirst) (ih others hOthers)

theorem resolveEntry_spec (entry result : String × String)
    (hResolve : resolveEntry f entry = .ok result) : EntryResolved f entry result := by
  obtain ⟨value, hValue, hSame⟩ := map_eq_ok_iff.mp hResolve
  cases hSame
  exact ⟨rfl, hValue⟩

theorem resolvePreparation_spec (step result : Preparation)
    (hResolve : resolvePreparation f step = .ok result) : PreparationResolved f step result := by
  obtain ⟨path, hPath, hSame⟩ := map_eq_ok_iff.mp hResolve
  cases hSame
  exact ⟨rfl, hPath⟩

mutual

theorem resolveElement_spec (e result : Element) (hResolve : resolveElement f e = .ok result) :
    ElementResolved f e result := by
  match e with
  | ⟨tag, attributes, text, children⟩ =>
      rw [resolveElement] at hResolve
      obtain ⟨text', hText, hResolve⟩ := bind_eq_ok_iff.mp hResolve
      obtain ⟨attributes', hAttributes, hResolve⟩ := bind_eq_ok_iff.mp hResolve
      obtain ⟨children', hChildren, hResolve⟩ := bind_eq_ok_iff.mp hResolve
      cases hResolve
      exact .intro hText (resolveEach_spec resolveEntry_spec _ _ hAttributes)
        (resolveElements_spec children children' hChildren)

theorem resolveElements_spec (elements results : List Element)
    (hResolve : resolveElements f elements = .ok results) :
    List.Forall₂ (ElementResolved f) elements results := by
  match elements with
  | [] =>
      rw [resolveElements] at hResolve
      cases hResolve
      exact .nil
  | e :: rest =>
      rw [resolveElements] at hResolve
      obtain ⟨first, hFirst, hResolve⟩ := bind_eq_ok_iff.mp hResolve
      obtain ⟨others, hOthers, hResolve⟩ := bind_eq_ok_iff.mp hResolve
      cases hResolve
      exact .cons (resolveElement_spec e first hFirst) (resolveElements_spec rest others hOthers)

end

theorem resolveDetails_spec {a : Action} {params : ActionDetails}
    (hResolve : resolveDetails f a = .ok params) : DetailsResolved f a params := by
  obtain ⟨prepare, hPrepare, hResolve⟩ := bind_eq_ok_iff.mp hResolve
  obtain ⟨configuration, hConfiguration, hResolve⟩ := bind_eq_ok_iff.mp hResolve
  obtain ⟨files, hFiles, hResolve⟩ := bind_eq_ok_iff.mp hResolve
  obtain ⟨archives, hArchives, hResolve⟩ := bind_eq_ok_iff.mp hResolve
  obtain ⟨payload, hPayload, hResolve⟩ := bind_eq_ok_iff.mp hResolve
  cases hResolve
  exact ⟨resolveEach_spec resolvePreparation_spec _ _ hPrepare,
    resolveEach_spec resolveEntry_spec _ _ hConfiguration,
    resolveEach_spec (fun _ _ hText => hText) _ _ hFiles,
    resolveEach_spec (fun _ _ hText => hText) _ _ hArchives, resolveElements_spec _ _ hPayload⟩

end Resolution

/-- The body made for the owner of a task holds the texts of its node. -/
theorem bodyResolved_of_bodyOf {scope : Scope} {node : Node} {owner : Walk.Owner} {body : TaskBody}
    (hOwner : Walk.Owner.ofNode? node = some owner) (hBody : Walk.bodyOf scope owner = .ok body) :
    BodyResolved scope node body := by
  cases node with
  | action a =>
      cases hOwner
      obtain ⟨params, hParams, rfl⟩ := map_eq_ok_iff.mp hBody
      exact .action (resolveDetails_spec (mapError_eq_ok_iff.mp hParams))
  | kill killName message =>
      cases hOwner
      obtain ⟨text, hText, rfl⟩ := map_eq_ok_iff.mp hBody
      exact .kill (mapError_eq_ok_iff.mp hText)
  | start target => cases hOwner
  | decision d => cases hOwner
  | fork f => cases hOwner
  | join joinName target => cases hOwner
  | finish endName => cases hOwner

/-- The tasks of a workflow are the actions and kills that can be reached, one for each and with ids
of their own.  They hold the texts of their nodes, interpolated against the defaults of parameters
overridden by the configuration.  Where two such nodes have the same task id, there are no tasks. -/
theorem tasks_are_reachable_nodes {source : String} {w : Workflow}
    (hRead : (Workflow.read source).result = .ok w) (options : TaskOptions) :
    (∀ g, (TaskGraph.ofWorkflow w options).result = .ok g →
      (∀ name, name ∈ g.tasks.map Task.source ↔ w.OwnsTask name) ∧
      (g.tasks.map Task.source).Nodup ∧ (g.tasks.map Task.id).Nodup ∧
      ∀ task ∈ g.tasks, task.id = Task.idOf task.source ∧
        ∃ node, Workflow.find? w.nodes task.source = some node ∧
          node.template? = some task.body.template ∧
          BodyResolved (Walk.scopeOf w options) node task.body) ∧
    (options.configuration.names.Nodup → ∀ name,
      (Walk.scopeOf w options).definitions.get? name =
        (options.configuration.get? name).or (w.defaults.get? name)) ∧
    (∀ first second, w.OwnsTask first → w.OwnsTask second → first ≠ second →
      Task.idOf first = Task.idOf second →
      ∃ error, (TaskGraph.ofWorkflow w options).result = .error error) := by
  have hChecked := Workflow.checked_of_read hRead
  refine ⟨fun g hGraph => ?_, Record.get?_merge w.defaults options.configuration, ?_⟩
  · have hTransformed := Transformed.of_ofWorkflow hChecked hGraph
    -- Ids are made of sources, so distinct ids have distinct sources.
    have hIds : g.tasks.map Task.id = (g.tasks.map Task.source).map Task.idOf := by
      rw [List.map_map]
      exact List.map_congr_left fun task hTask => (hTransformed.sound task hTask).id
    refine ⟨fun name => ⟨fun hName => ?_, fun hOwns => ?_⟩, ?_, hTransformed.ids,
      fun task hTask => ?_⟩
    · obtain ⟨task, hTask, rfl⟩ := List.mem_map.mp hName
      exact hTransformed.ownsTask hTask
    · exact List.mem_map.mpr (hTransformed.exists_task hOwns)
    · exact List.Nodup.of_map Task.idOf (hIds ▸ hTransformed.ids)
    · obtain ⟨node, owner, hFind, hOwner, hBody⟩ := (hTransformed.sound task hTask).owned
      have hResolved := bodyResolved_of_bodyOf hOwner hBody
      exact ⟨(hTransformed.sound task hTask).id, node, hFind, hResolved.template, hResolved⟩
  · intro first second hFirst hSecond hDistinct hId
    cases hResult : (TaskGraph.ofWorkflow w options).result with
    | error error => exact ⟨error, rfl⟩
    | ok g =>
        have hTransformed := Transformed.of_ofWorkflow hChecked hResult
        exact absurd (hTransformed.eq_of_idOf hFirst hSecond hId) hDistinct

theorem tasks_are_reachable_nodes_sample :
    (∀ name, name ∈ Sample.graph.tasks.map Task.source ↔ Sample.workflow.OwnsTask name) ∧
    ∀ task ∈ Sample.graph.tasks, ∃ node,
      Workflow.find? Sample.workflow.nodes task.source = some node ∧
      BodyResolved (Walk.scopeOf Sample.workflow {}) node task.body := by
  obtain ⟨hSources, -, -, hTasks⟩ :=
    (tasks_are_reachable_nodes Sample.read_source {}).1 Sample.graph Sample.ofWorkflow_workflow
  refine ⟨hSources, fun task hTask => ?_⟩
  obtain ⟨-, node, hFind, -, hBody⟩ := hTasks task hTask
  exact ⟨node, hFind, hBody⟩

end WorkflowDag
