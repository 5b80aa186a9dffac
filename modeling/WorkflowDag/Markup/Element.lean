import WorkflowDag.Record

/-!
# Elements

The tree of a workflow document.  Names are local names, the text of an element is its own character
data without the blanks around it, and attributes are a record.
-/

namespace WorkflowDag

/-- An element of a document. -/
structure Element where
  tag : String
  attributes : Record := .empty
  text : String := ""
  children : List Element := []
deriving Repr

namespace Element

mutual

/-- Elements are compared with all that is below them. -/
def decideEq : (a b : Element) → Decidable (a = b)
  | ⟨tag, attributes, text, children⟩, ⟨tag', attributes', text', children'⟩ =>
    match decideEqAll children children' with
    | isTrue hChildren =>
      decidable_of_iff (tag = tag' ∧ attributes = attributes' ∧ text = text')
        ⟨fun h => by rw [h.1, h.2.1, h.2.2, hChildren], fun h => by cases h; exact ⟨rfl, rfl, rfl⟩⟩
    | isFalse hChildren => isFalse fun h => by cases h; exact hChildren rfl

/-- Lists of elements are compared one by one. -/
def decideEqAll : (as bs : List Element) → Decidable (as = bs)
  | [], [] => isTrue rfl
  | [], _ :: _ => isFalse fun h => by cases h
  | _ :: _, [] => isFalse fun h => by cases h
  | a :: as, b :: bs =>
    match decideEq a b, decideEqAll as bs with
    | isTrue hFirst, isTrue hRest => isTrue (by rw [hFirst, hRest])
    | isFalse hFirst, _ => isFalse fun h => by cases h; exact hFirst rfl
    | _, isFalse hRest => isFalse fun h => by cases h; exact hRest rfl

end

instance : DecidableEq Element := decideEq

/-- The children with a given tag. -/
def childrenWithTag (e : Element) (tag : String) : List Element :=
  e.children.filter fun child => child.tag == tag

/-- The first child with a given tag. -/
def child? (e : Element) (tag : String) : Option Element :=
  e.children.find? fun child => child.tag == tag

end Element
end WorkflowDag
