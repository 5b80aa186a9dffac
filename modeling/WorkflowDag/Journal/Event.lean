import WorkflowDag.Journal.Log
import WorkflowDag.Workflow.Node

/-!
# Events

What a conversion tells about its progress.  An entry is an event together with the scopes in which
it happened.
-/

namespace WorkflowDag

/-- Something worth telling. -/
inductive Event where
  | sectionIgnored (tag : String)
  | nodeRead (node : Node)
  | workflowRead (name : String) (nodes : Nat)
  | decisionMade (decision selected : String) (takenCase : Option Nat)
  | workflowTransformed (name : String) (tasks decisions : Nat)
  | taskRendered (source template : String)
  | dagRendered (name : String) (units relations : Nat)
  | noPropertyFile (path : String)
  | propertiesLoaded (count : Nat) (path : String)
  | dagSaved (path : String)
  | assetExcluded (reference : String)
  | assetMissing (reference : String)
  | assetCopied (reference : String)
deriving Repr

namespace Event

/-- A node in words. -/
def describe : Node → String
  | .action a => "Action Node of type " ++ a.actionType
  | .decision d => "Decision Node with " ++ Text.decimal d.cases.length ++ " case(s)"
  | .start _ => "Start Node"
  | .fork _ => "Fork Node"
  | .join _ _ => "Join Node"
  | .kill _ _ => "Kill Node"
  | .finish _ => "End Node"

/-- The event in words. -/
def message : Event → String
  | sectionIgnored tag => "Ignoring <" ++ tag ++ "> section."
  | nodeRead node => "Parsed " ++ node.name ++ " as " ++ describe node ++ "."
  | workflowRead name nodes =>
    "Parsed workflow \"" ++ name ++ "\" with " ++ Text.decimal nodes ++ " nodes."
  | decisionMade decision selected takenCase =>
    "Decision " ++ decision ++ " selected " ++ selected ++
      (match takenCase with
        | none => " (default)"
        | some index => " (case " ++ Text.decimal (index + 1) ++ ")") ++ "."
  | workflowTransformed name tasks decisions =>
    "Transformed workflow \"" ++ name ++ "\" into " ++ Text.decimal tasks ++ " tasks and " ++
      Text.decimal decisions ++ " decisions."
  | taskRendered source template => "Rendered " ++ source ++ " with template " ++ template ++ "."
  | dagRendered name units relations =>
    "Rendered DAG \"" ++ name ++ "\" with " ++ Text.decimal units ++ " tasks and " ++
      Text.decimal relations ++ " relations."
  | noPropertyFile path => "No property file at " ++ path ++ "."
  | propertiesLoaded count path =>
    "Loaded " ++ Text.decimal count ++ " new properties from " ++ path ++ "."
  | dagSaved path => "Saved DAG to " ++ path ++ "."
  | assetExcluded reference => "Skipping excluded asset " ++ reference ++ "."
  | assetMissing reference => "Asset " ++ reference ++ " is not in the input directory."
  | assetCopied reference => "Copied " ++ reference ++ "."

/-- The level at which an event is told. -/
def level : Event → Level
  | workflowRead _ _ | workflowTransformed _ _ _ | dagRendered _ _ _ | dagSaved _
  | assetCopied _ => .info
  | _ => .debug

end Event

/-- An event and the scopes in which it happened, the outermost first. -/
structure Entry where
  scopes : List String
  event : Event
deriving Repr

namespace Entry

/-- The entry seen from an outer scope. -/
def within (scope : String) (e : Entry) : Entry :=
  { e with scopes := scope :: e.scopes }

/-- The lines that a logger writes for an entry. -/
def lines (logger : Logger) (e : Entry) : List String :=
  (e.scopes.foldl Logger.child logger).lines e.event.level e.event.message

end Entry

/-- A result with the trail of events on the way to it, which a failure leaves too. -/
structure Traced (α : Type) where
  trail : List Entry
  result : Except Error α

namespace Traced

/-- A result without events. -/
def ofExcept {α : Type} (result : Except Error α) : Traced α :=
  ⟨[], result⟩

/-- Tells an event. -/
def tell (event : Event) : Traced Unit :=
  ⟨[⟨[], event⟩], .ok ()⟩

/-- One computation after the other; the second runs only when the first succeeds. -/
def andThen {α β : Type} (x : Traced α) (f : α → Traced β) : Traced β :=
  match x.result with
  | .ok a => ⟨x.trail ++ (f a).trail, (f a).result⟩
  | .error e => ⟨x.trail, .error e⟩

instance : Monad Traced where
  pure a := ⟨[], .ok a⟩
  bind := andThen

/-- The computation seen from an outer scope. -/
def within {α : Type} (scope : String) (x : Traced α) : Traced α :=
  { x with trail := x.trail.map (Entry.within scope) }

@[simp] theorem result_pure {α : Type} (a : α) : (pure a : Traced α).result = .ok a := rfl

@[simp] theorem result_bind {α β : Type} (x : Traced α) (f : α → Traced β) :
    (x >>= f).result = x.result >>= fun a => (f a).result := by
  show (andThen x f).result = _
  unfold andThen
  cases h : x.result <;> rfl

@[simp] theorem result_ofExcept {α : Type} (r : Except Error α) : (ofExcept r).result = r := rfl

@[simp] theorem result_tell (event : Event) : (tell event).result = .ok () := rfl

@[simp] theorem result_within {α : Type} (scope : String) (x : Traced α) :
    (x.within scope).result = x.result := rfl

end Traced
end WorkflowDag
