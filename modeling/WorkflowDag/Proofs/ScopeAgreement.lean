import WorkflowDag.Proofs.CheckedWorkflow
import WorkflowDag.Task.Walk

/-!
# What evaluation depends on

A scope is asked for the values of variables and for the name of the workflow.  Scopes that give the
same answers (`Scope.Agrees`) give every expression the same value, whatever the order of their
entries.  What is done with variables that have no value matters to the texts of tasks only
(`Template.interpolate_congr`): guards are evaluated as if it were an error (`chooseGuard_congr`).
-/

namespace WorkflowDag

/-- Both scopes give the same values to variables and the same name to the workflow. -/
structure Scope.Agrees (scope scope' : Scope) : Prop where
  get? : ∀ name, scope.definitions.get? name = scope'.definitions.get? name
  workflowName : scope.workflowName = scope'.workflowName

section

variable {scope scope' : Scope}

theorem Scope.Agrees.lookup? (hAgrees : scope.Agrees scope') (name : String) :
    scope.lookup? name = scope'.lookup? name := by
  unfold Scope.lookup?
  rw [hAgrees.get?]

theorem Scope.Agrees.lookup (hAgrees : scope.Agrees scope') (name : String) :
    scope.lookup name = scope'.lookup name := by
  unfold Scope.lookup
  rw [hAgrees.lookup?]

theorem Builtin.apply_congr (hAgrees : scope.Agrees scope') (function : Builtin)
    (values : List Value) : function.apply scope values = function.apply scope' values := by
  unfold Builtin.apply
  simp only [hAgrees.lookup?, hAgrees.lookup, hAgrees.workflowName]

mutual

theorem Expression.eval_congr (hAgrees : scope.Agrees scope') (e : Expression) :
    e.eval scope = e.eval scope' := by
  cases e with
  | literal value => rfl
  | reference name => exact hAgrees.lookup name
  | compare op left right =>
      unfold eval
      rw [eval_congr hAgrees left, eval_congr hAgrees right]
  | call name arguments =>
      unfold eval
      rw [evalAll_congr hAgrees arguments]
      simp only [Builtin.apply_congr hAgrees]

theorem Expression.evalAll_congr (hAgrees : scope.Agrees scope') (es : List Expression) :
    evalAll scope es = evalAll scope' es := by
  cases es with
  | nil => rfl
  | cons e rest =>
      unfold evalAll
      rw [eval_congr hAgrees e, evalAll_congr hAgrees rest]

end

namespace Template

theorem evalSegment_congr (hAgrees : scope.Agrees scope')
    (hUnresolved : scope.unresolved = scope'.unresolved) (segment : Segment) :
    evalSegment scope segment = evalSegment scope' segment := by
  unfold evalSegment
  simp only [hAgrees.lookup?, hUnresolved, Expression.eval_congr hAgrees]

theorem evalSegments_congr (hAgrees : scope.Agrees scope')
    (hUnresolved : scope.unresolved = scope'.unresolved) (segments : List Segment) :
    evalSegments scope segments = evalSegments scope' segments := by
  induction segments with
  | nil => rfl
  | cons segment rest ih =>
      rw [evalSegments, evalSegments, evalSegment_congr hAgrees hUnresolved, ih]

theorem interpolate_congr (hAgrees : scope.Agrees scope')
    (hUnresolved : scope.unresolved = scope'.unresolved) :
    interpolate scope = interpolate scope' := by
  funext text
  unfold interpolate
  simp only [evalSegments_congr hAgrees hUnresolved]

end Template

theorem GuardChoice.evaluate_congr (hAgrees : scope.Agrees scope')
    (hUnresolved : scope.unresolved = scope'.unresolved) (exhaustive : Bool)
    (guards : List String) :
    ∀ position found, evaluate scope exhaustive position found guards =
      evaluate scope' exhaustive position found guards := by
  induction guards with
  | nil => exact fun position found => rfl
  | cons guard rest ih =>
      intro position found
      rw [evaluate, evaluate, Template.interpolate_congr hAgrees hUnresolved]
      simp only [ih]

theorem chooseGuard_congr (hAgrees : scope.Agrees scope') (exhaustive : Bool)
    (guards : List String) :
    chooseGuard scope exhaustive guards = chooseGuard scope' exhaustive guards := by
  have hStrict : ({ scope with unresolved := .error } : Scope).Agrees
      { scope' with unresolved := .error } := ⟨hAgrees.get?, hAgrees.workflowName⟩
  exact GuardChoice.evaluate_congr hStrict rfl exhaustive guards 0 none

namespace Walk

theorem bodyOf_congr (hAgrees : scope.Agrees scope')
    (hUnresolved : scope.unresolved = scope'.unresolved) (owner : Owner) :
    bodyOf scope owner = bodyOf scope' owner := by
  unfold bodyOf
  rw [Template.interpolate_congr hAgrees hUnresolved]

theorem resolveDecision_congr {options options' : TaskOptions} (hAgrees : scope.Agrees scope')
    (hStrict : options.strictDecisions = options'.strictDecisions) (d : Decision) :
    resolveDecision options scope d = resolveDecision options' scope' d := by
  unfold resolveDecision
  rw [chooseGuard_congr hAgrees, hStrict]

end Walk
end
namespace ScriptVariable

/-- The units of a document with a decision and an action whose texts are variables. -/
def units : List Char :=
  ["<w name='w'>",
    "<start to='d'/>",
    "<decision name='d'><switch><case to='a'>$\x7bflag\x7d</case>",
    "<default to='e'/></switch></decision>",
    "<action name='a'><pig><script>$\x7bscript\x7d</script></pig>",
    "<ok to='e'/><error to='e'/></action>",
    "<end name='e'/>",
    "</w>"].flatMap String.toList

/-- The document with these units. -/
def source : String :=
  String.ofList units

/-- The workflow of the document. -/
def workflow : Workflow where
  name := "w"
  nodes :=
    [.start "d",
      .decision ⟨"d", [⟨"$\x7bflag\x7d", "a"⟩], "e"⟩,
      .action
        { name := "a"
          actionType := "pig"
          payload := [{ tag := "script", text := "$\x7bscript\x7d" }]
          ok := "e"
          error := "e" },
      .finish "e"]
  closingJoins := []
  defaults := .empty

theorem read_source : (Workflow.read source).result = .ok workflow :=
  Workflow.read_ofList (by decide +kernel)

/-- The options that give these values to variables. -/
def options (entries : List (String × String)) : ConversionOptions where
  transform := { configuration := ⟨entries⟩ }

end ScriptVariable
end WorkflowDag
