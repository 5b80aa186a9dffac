import WorkflowDag.Task.Basic
import WorkflowDag.Template.Evaluation

/-!
# Resolving the texts of a node

The expressions in the texts of an action or kill node are evaluated once, when its task is made:
prepare paths, configuration, files and archives, then each payload element with its text, its
attributes and its children.
-/

namespace WorkflowDag

/-- Applies a fallible function to every item of a list, from left to right. -/
def resolveEach {α : Type} (f : α → Except EvalError α) : List α → Except EvalError (List α)
  | [] => .ok []
  | item :: rest => do
    let first ← f item
    let others ← resolveEach f rest
    pure (first :: others)

/-- Applies a fallible function to the value of an entry. -/
def resolveEntry (f : String → Except EvalError String) (entry : String × String) :
    Except EvalError (String × String) :=
  (f entry.2).map fun value => (entry.1, value)

/-- Applies a fallible function to the path of a prepare step. -/
def resolvePreparation (f : String → Except EvalError String) (step : Preparation) :
    Except EvalError Preparation :=
  (f step.path).map fun path => ⟨step.op, path⟩

mutual

/-- Applies a fallible function to the text and the attribute values of an element and all below. -/
def resolveElement (f : String → Except EvalError String) : Element → Except EvalError Element
  | ⟨tag, attributes, text, children⟩ => do
    let text' ← f text
    let attributes' ← resolveEach (resolveEntry f) attributes.entries
    let children' ← resolveElements f children
    pure ⟨tag, ⟨attributes'⟩, text', children'⟩

/-- Applies a fallible function to the texts of a list of elements. -/
def resolveElements (f : String → Except EvalError String) :
    List Element → Except EvalError (List Element)
  | [] => .ok []
  | e :: rest => do
    let first ← resolveElement f e
    let others ← resolveElements f rest
    pure (first :: others)

end

/-- The parameters of an action, its expressions evaluated. -/
def resolveDetails (f : String → Except EvalError String) (a : Action) :
    Except EvalError ActionDetails := do
  let prepare ← resolveEach (resolvePreparation f) a.prepare
  let configuration ← resolveEach (resolveEntry f) a.configuration.entries
  let files ← resolveEach f a.files
  let archives ← resolveEach f a.archives
  let payload ← resolveElements f a.payload
  pure ⟨prepare, ⟨configuration⟩, files, archives, payload⟩

end WorkflowDag
