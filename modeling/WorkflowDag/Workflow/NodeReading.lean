import WorkflowDag.Workflow.Node

/-!
# Reading nodes

Each element of a workflow document makes one node, after the rules of its kind have been checked.
-/

namespace WorkflowDag
namespace Node

/-- The value of an attribute that has to be there, without the blanks around it. -/
def neededAttribute (e : Element) (key node : String) : Except Error String :=
  let missing : Error := .malformedNode node (.missingAttribute e.tag key)
  match e.attributes.get? key with
  | some value => if Text.trim value = "" then .error missing else .ok (Text.trim value)
  | none => .error missing

/-- Reads the properties of a configuration; the last value of a name counts. -/
def readProperties (node : String) : Record → List Element → Except Error Record
  | record, [] => .ok record
  | record, property :: rest =>
    let name := ((property.child? "name").map Element.text).getD ""
    let value := ((property.child? "value").map Element.text).getD ""
    if name = "" then .error (.malformedNode node .namelessProperty)
    else readProperties node (record.assign name value) rest

/-- Reads the configuration of an action. -/
def configurationIn (node : String) : Option Element → Except Error Record
  | none => .ok .empty
  | some e => readProperties node .empty (e.childrenWithTag "property")

/-- Reads one prepare step. -/
def readPreparation (node : String) (step : Element) : Except Error Preparation := do
  let op ←
    if step.tag = "mkdir" then .ok PreparationKind.mkdir
    else if step.tag = "delete" then .ok PreparationKind.delete
    else .error (.malformedNode node (.unknownPrepareStep step.tag))
  let path ← neededAttribute step "path" node
  pure ⟨op, path⟩

/-- Reads the prepare steps of an action. -/
def preparationsIn (node : String) : Option Element → Except Error (List Preparation)
  | none => .ok []
  | some e => e.children.mapM (readPreparation node)

/-- The element is a transition of an action and not its tool. -/
def isTransition (e : Element) : Bool :=
  e.tag == "ok" || e.tag == "error"

/-- The element belongs to the frame of a tool and not to its payload. -/
def isFrame (e : Element) : Bool :=
  e.tag == "prepare" || e.tag == "configuration" || e.tag == "file" || e.tag == "archive"

/-- Reads an action. -/
def readAction (e : Element) : Except Error Node := do
  let name ← neededAttribute e "name" e.tag
  match e.children.filter fun child => !isTransition child with
  | [] => .error (.malformedNode name .noActionType)
  | [tool] =>
    match e.childrenWithTag "ok", e.childrenWithTag "error" with
    | [ok], [error] =>
      let prepare ← preparationsIn name (tool.child? "prepare")
      let configuration ← configurationIn name (tool.child? "configuration")
      let okTo ← neededAttribute ok "to" name
      let errorTo ← neededAttribute error "to" name
      pure (.action
        { name
          actionType := tool.tag
          prepare
          configuration
          files := (tool.childrenWithTag "file").map Element.text
          archives := (tool.childrenWithTag "archive").map Element.text
          payload := tool.children.filter fun child => !isFrame child
          ok := okTo
          error := errorTo })
    | _, _ => .error (.malformedNode name .transitionCount)
  | tools => .error (.malformedNode name (.severalActionTypes (tools.map Element.tag)))

/-- Reads a decision. -/
def readDecision (e : Element) : Except Error Node := do
  let name ← neededAttribute e "name" e.tag
  match e.child? "switch" with
  | none => .error (.malformedNode name .noSwitch)
  | some switch =>
    let cases ← (switch.childrenWithTag "case").mapM fun c => do
      let target ← neededAttribute c "to" name
      pure (⟨c.text, target⟩ : GuardedCase)
    if cases.isEmpty then .error (.malformedNode name .noCases)
    else
      match switch.childrenWithTag "default" with
      | [fallback] =>
        let target ← neededAttribute fallback "to" name
        pure (.decision ⟨name, cases, target⟩)
      | _ => .error (.malformedNode name .defaultCount)

/-- No name occurs twice. -/
def allDistinct : List String → Bool
  | [] => true
  | s :: rest => !rest.contains s && allDistinct rest

/-- Reads a fork. -/
def readFork (e : Element) : Except Error Node := do
  let name ← neededAttribute e "name" e.tag
  let paths ← (e.childrenWithTag "path").mapM fun p => neededAttribute p "start" name
  if paths.length < 2 then .error (.malformedNode name .tooFewPaths)
  else if !allDistinct paths then .error (.malformedNode name .repeatedPath)
  else
    let declared := ((e.attributes.get? "join").map Text.trim).filter fun join => join != ""
    pure (.fork ⟨name, paths, declared⟩)

/-- Reads the node of an element. -/
def ofElement (e : Element) : Except Error Node :=
  if e.tag = "start" then do
    let target ← neededAttribute e "to" startName
    pure (.start target)
  else if e.tag = "end" then do
    let name ← neededAttribute e "name" e.tag
    pure (.finish name)
  else if e.tag = "kill" then do
    let name ← neededAttribute e "name" e.tag
    pure (.kill name (((e.child? "message").map Element.text).getD ""))
  else if e.tag = "join" then do
    let name ← neededAttribute e "name" e.tag
    let target ← neededAttribute e "to" name
    pure (.join name target)
  else if e.tag = "fork" then readFork e
  else if e.tag = "decision" then readDecision e
  else if e.tag = "action" then readAction e
  else .error (.malformedNode ((e.attributes.get? "name").getD e.tag) (.unrecognizedKind e.tag))

end Node
end WorkflowDag
