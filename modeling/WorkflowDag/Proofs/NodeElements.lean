import Mathlib.Data.List.Forall2
import WorkflowDag.Proofs.Success

/-!
# What an element says about its node

Each kind of node has a tag of its own.  `Declares` says what a node that has been read takes from
its element: the kind from the tag, the name, and where it leads.  This is read off the reader once
(`declares_of_ofElement`), and what later checks rely on follows from it.
-/

namespace WorkflowDag

/-- Members of the second of two related lists are related to members of the first. -/
theorem exists_mem_left_of_forall₂ {α β : Type} {R : α → β → Prop} {items : List α}
    {others : List β}
    (hAll : List.Forall₂ R items others) {other : β} (hMem : other ∈ others) :
    ∃ item ∈ items, R item other := by
  induction hAll with
  | nil => exact absurd hMem List.not_mem_nil
  | @cons first second rest rest' hFirst _ ih =>
      rcases List.mem_cons.mp hMem with rfl | hRest
      · exact ⟨first, List.mem_cons_self, hFirst⟩
      · obtain ⟨item, hItem, hPair⟩ := ih hRest
        exact ⟨item, List.mem_cons_of_mem _ hItem, hPair⟩

theorem map_eq_map_of_forall₂ {α β γ : Type} {f : α → γ} {g : β → γ} {items : List α}
    {others : List β} (hAll : List.Forall₂ (fun item other => f item = g other) items others) :
    items.map f = others.map g := by
  rwa [← List.forall₂_eq_eq_eq, List.forall₂_map_left_iff, List.forall₂_map_right_iff]

/-- Items are all read when each of them is. -/
theorem mapM_eq_ok_iff {ε α β : Type} {f : α → Except ε β} {items : List α} {results : List β} :
    items.mapM f = .ok results ↔
      List.Forall₂ (fun item result => f item = .ok result) items results := by
  induction items generalizing results with
  | nil =>
      constructor
      · intro hRead
        cases hRead
        exact .nil
      · intro hAll
        cases hAll
        rfl
  | cons item rest ih =>
      rw [List.mapM_cons]
      constructor
      · intro hRead
        obtain ⟨first, hFirst, hRead⟩ := bind_eq_ok_iff.mp hRead
        obtain ⟨others, hOthers, hRead⟩ := bind_eq_ok_iff.mp hRead
        cases hRead
        exact .cons hFirst (ih.mp hOthers)
      · intro hAll
        cases hAll with
        | cons hFirst hOthers =>
            rw [hFirst, ih.mpr hOthers]
            rfl

theorem exists_mapM_iff {ε α β : Type} {f : α → Except ε β} {items : List α} :
    (∃ results, items.mapM f = .ok results) ↔ ∀ item ∈ items, ∃ result, f item = .ok result := by
  simp only [mapM_eq_ok_iff]
  induction items with
  | nil => exact ⟨fun _ _ hItem => absurd hItem List.not_mem_nil, fun _ => ⟨[], .nil⟩⟩
  | cons item rest ih =>
      rw [List.forall_mem_cons, ← ih]
      constructor
      · rintro ⟨results, hAll⟩
        obtain ⟨first, others, hFirst, hOthers, -⟩ := List.forall₂_cons_left_iff.mp hAll
        exact ⟨⟨first, hFirst⟩, others, hOthers⟩
      · rintro ⟨⟨first, hFirst⟩, others, hOthers⟩
        exact ⟨first :: others, .cons hFirst hOthers⟩

/-- Reading items fails at the first of them that cannot be read. -/
theorem mapM_eq_error_iff {ε α β : Type} {f : α → Except ε β} {items : List α} {e : ε} :
    items.mapM f = .error e ↔ ∃ before item after, items = before ++ item :: after ∧
      (∀ other ∈ before, ∃ result, f other = .ok result) ∧ f item = .error e := by
  induction items with
  | nil =>
      constructor
      · intro hRead
        cases hRead
      · rintro ⟨before, item, after, hItems, -⟩
        exact absurd hItems.symm (List.append_ne_nil_of_right_ne_nil before (List.cons_ne_nil _ _))
  | cons first rest ih =>
      rw [List.mapM_cons, bind_eq_error_iff]
      constructor
      · rintro (hFirst | ⟨result, hFirst, hRest⟩)
        · exact ⟨[], first, rest, rfl, fun _ hOther => absurd hOther List.not_mem_nil, hFirst⟩
        · rcases bind_eq_error_iff.mp hRest with hRest | ⟨results, -, hRest⟩
          · obtain ⟨before, item, after, hItems, hBefore, hItem⟩ := ih.mp hRest
            exact ⟨first :: before, item, after, by rw [hItems, List.cons_append],
              List.forall_mem_cons.mpr ⟨⟨result, hFirst⟩, hBefore⟩, hItem⟩
          · cases hRest
      · rintro ⟨before, item, after, hItems, hBefore, hItem⟩
        cases before with
        | nil =>
            cases hItems
            exact Or.inl hItem
        | cons other before =>
            cases hItems
            obtain ⟨⟨result, hFirst⟩, hBefore⟩ := List.forall_mem_cons.mp hBefore
            exact Or.inr ⟨result, hFirst,
              bind_eq_error_iff.mpr (Or.inl (ih.mpr ⟨before, item, after, rfl, hBefore, hItem⟩))⟩

theorem NodeKind.word_injective : Function.Injective NodeKind.word := by
  intro a b
  cases a <;> cases b <;> decide

namespace Node

/-- An attribute without the blanks around it, where something is left. -/
def attribute? (e : Element) (key : String) : Option String :=
  ((e.attributes.get? key).map Text.trim).filter fun value => value != ""

/-- What an element says about its node: the kind, the name, and where it leads. -/
inductive Declares : Element → Node → Prop
  | start {e : Element} {target : String} (hTag : e.tag = "start")
      (hTarget : attribute? e "to" = some target) : Declares e (.start target)
  | finish {e : Element} {name : String} (hTag : e.tag = "end")
      (hName : attribute? e "name" = some name) : Declares e (.finish name)
  | kill {e : Element} {name message : String} (hTag : e.tag = "kill")
      (hName : attribute? e "name" = some name) : Declares e (.kill name message)
  | join {e : Element} {name target : String} (hTag : e.tag = "join")
      (hName : attribute? e "name" = some name) (hTarget : attribute? e "to" = some target) :
      Declares e (.join name target)
  | fork {e : Element} {f : Fork} (hTag : e.tag = "fork")
      (hName : attribute? e "name" = some f.name)
      (hPaths : List.Forall₂ (fun p path => attribute? p "start" = some path)
        (e.childrenWithTag "path") f.paths)
      (hSeveral : 2 ≤ f.paths.length) (hDistinct : f.paths.Nodup)
      (hDeclared : f.declaredJoin = attribute? e "join") : Declares e (.fork f)
  | decision {e switch fallback : Element} {d : Decision} (hTag : e.tag = "decision")
      (hName : attribute? e "name" = some d.name) (hSwitch : e.child? "switch" = some switch)
      (hCases : List.Forall₂ (fun c branch => c.text = branch.guard ∧
        attribute? c "to" = some branch.target) (switch.childrenWithTag "case") d.cases)
      (hSome : d.cases ≠ []) (hDefault : switch.childrenWithTag "default" = [fallback])
      (hFallback : attribute? fallback "to" = some d.fallback) : Declares e (.decision d)
  | action {e ok error : Element} {a : Action} (hTag : e.tag = "action")
      (hName : attribute? e "name" = some a.name) (hOk : e.childrenWithTag "ok" = [ok])
      (hError : e.childrenWithTag "error" = [error]) (hOkTo : attribute? ok "to" = some a.ok)
      (hErrorTo : attribute? error "to" = some a.error) : Declares e (.action a)

section Reading

variable {e : Element} {node : Node}

theorem neededAttribute_eq_ok_iff {key owner value : String} :
    neededAttribute e key owner = .ok value ↔ attribute? e key = some value := by
  unfold neededAttribute attribute?
  cases e.attributes.get? key with
  | none => simp
  | some text =>
      by_cases hEmpty : Text.trim text = ""
      · simp [hEmpty]
      · simp only [Option.map_some, if_neg hEmpty, Except.ok.injEq, Option.filter_eq_some_iff,
          Option.some.injEq, bne_iff_ne]
        exact ⟨fun hSame => ⟨hSame, hSame ▸ hEmpty⟩, And.left⟩

theorem ne_empty_of_attribute? {key value : String} (hValue : attribute? e key = some value) :
    value ≠ "" := by
  have hKept := (Option.filter_eq_some_iff.mp hValue).2
  exact bne_iff_ne.mp hKept

theorem nodup_of_allDistinct {names : List String} (hDistinct : allDistinct names = true) :
    names.Nodup := by
  induction names with
  | nil => exact List.nodup_nil
  | cons name rest ih =>
      rw [allDistinct, Bool.and_eq_true, Bool.not_eq_true'] at hDistinct
      refine List.nodup_cons.mpr ⟨fun hMem => ?_, ih hDistinct.2⟩
      rw [List.contains_iff_mem.mpr hMem] at hDistinct
      exact absurd hDistinct.1 (by decide)

theorem declares_of_readFork (hTag : e.tag = "fork") (hRead : readFork e = .ok node) :
    Declares e node := by
  obtain ⟨name, hName, hRead⟩ := bind_eq_ok_iff.mp hRead
  obtain ⟨paths, hPaths, hRead⟩ := bind_eq_ok_iff.mp hRead
  by_cases hFew : paths.length < 2
  · rw [if_pos hFew] at hRead
    cases hRead
  rw [if_neg hFew] at hRead
  by_cases hDistinct : allDistinct paths = true
  · rw [if_neg (by simp [hDistinct])] at hRead
    cases hRead
    refine .fork hTag (neededAttribute_eq_ok_iff.mp hName) ?_ (Nat.le_of_not_lt hFew)
      (nodup_of_allDistinct hDistinct) rfl
    exact (mapM_eq_ok_iff.mp hPaths).imp fun _ _ => neededAttribute_eq_ok_iff.mp
  · rw [if_pos (by simp [hDistinct])] at hRead
    cases hRead

theorem declares_of_readDecision (hTag : e.tag = "decision") (hRead : readDecision e = .ok node) :
    Declares e node := by
  obtain ⟨name, hName, hRead⟩ := bind_eq_ok_iff.mp hRead
  cases hSwitch : e.child? "switch" with
  | none =>
      rw [hSwitch] at hRead
      cases hRead
  | some switch =>
      rw [hSwitch] at hRead
      obtain ⟨branches, hBranches, hRead⟩ := bind_eq_ok_iff.mp hRead
      by_cases hNone : branches.isEmpty = true
      · rw [if_pos hNone] at hRead
        cases hRead
      rw [if_neg hNone] at hRead
      -- There is exactly one default.
      split at hRead
      next fallback hDefault =>
        obtain ⟨target, hTarget, hRead⟩ := bind_eq_ok_iff.mp hRead
        cases hRead
        refine .decision hTag (neededAttribute_eq_ok_iff.mp hName) hSwitch ?_ ?_ hDefault
          (neededAttribute_eq_ok_iff.mp hTarget)
        · refine (mapM_eq_ok_iff.mp hBranches).imp fun c branch hBranch => ?_
          obtain ⟨target, hTarget, hBranch⟩ := bind_eq_ok_iff.mp hBranch
          cases hBranch
          exact ⟨rfl, neededAttribute_eq_ok_iff.mp hTarget⟩
        · rintro rfl
          exact hNone rfl
      next => cases hRead

theorem declares_of_readAction (hTag : e.tag = "action") (hRead : readAction e = .ok node) :
    Declares e node := by
  obtain ⟨name, hName, hRead⟩ := bind_eq_ok_iff.mp hRead
  split at hRead
  next => cases hRead
  next tool _ =>
    split at hRead
    next ok error hOk hError =>
      obtain ⟨prepare, -, hRead⟩ := bind_eq_ok_iff.mp hRead
      obtain ⟨configuration, -, hRead⟩ := bind_eq_ok_iff.mp hRead
      obtain ⟨okTo, hOkTo, hRead⟩ := bind_eq_ok_iff.mp hRead
      obtain ⟨errorTo, hErrorTo, hRead⟩ := bind_eq_ok_iff.mp hRead
      cases hRead
      exact .action hTag (neededAttribute_eq_ok_iff.mp hName) hOk hError
        (neededAttribute_eq_ok_iff.mp hOkTo) (neededAttribute_eq_ok_iff.mp hErrorTo)
    next => cases hRead
  next => cases hRead

/-- A node that has been read is what its element declares. -/
theorem declares_of_ofElement (hRead : ofElement e = .ok node) : Declares e node := by
  unfold ofElement at hRead
  split_ifs at hRead with hStart hEnd hKill hJoin hFork hDecision hAction
  · obtain ⟨target, hTarget, hRead⟩ := bind_eq_ok_iff.mp hRead
    cases hRead
    exact .start hStart (neededAttribute_eq_ok_iff.mp hTarget)
  · obtain ⟨name, hName, hRead⟩ := bind_eq_ok_iff.mp hRead
    cases hRead
    exact .finish hEnd (neededAttribute_eq_ok_iff.mp hName)
  · obtain ⟨name, hName, hRead⟩ := bind_eq_ok_iff.mp hRead
    cases hRead
    exact .kill hKill (neededAttribute_eq_ok_iff.mp hName)
  · obtain ⟨name, hName, hRead⟩ := bind_eq_ok_iff.mp hRead
    obtain ⟨target, hTarget, hRead⟩ := bind_eq_ok_iff.mp hRead
    cases hRead
    exact .join hJoin (neededAttribute_eq_ok_iff.mp hName) (neededAttribute_eq_ok_iff.mp hTarget)
  · exact declares_of_readFork hFork hRead
  · exact declares_of_readDecision hDecision hRead
  · exact declares_of_readAction hAction hRead

end Reading

namespace Declares

variable {e : Element} {node : Node}

/-- The tag of an element is the word for the kind of its node. -/
theorem kind_word (hDeclares : Declares e node) : node.kind.word = e.tag := by
  cases hDeclares with
  | start hTag | finish hTag | kill hTag | join hTag | fork hTag | decision hTag | action hTag =>
      exact hTag.symm

/-- The start has a name of its own; any other node is named by its element. -/
theorem name_eq (hDeclares : Declares e node) :
    some node.name = if e.tag = "start" then some startName else attribute? e "name" := by
  cases hDeclares with
  | start hTag =>
      rw [if_pos hTag]
      rfl
  | finish hTag hName | kill hTag hName | join hTag hName | fork hTag hName
  | decision hTag hName | action hTag hName =>
      rw [if_neg (by simp [hTag]), hName]
      rfl

theorem name_ne_empty (hDeclares : Declares e node) : node.name ≠ "" := by
  have hName := hDeclares.name_eq
  split at hName
  · rw [Option.some.inj hName]
    decide
  · exact ne_empty_of_attribute? hName.symm

end Declares

/-- A fork that is read has paths. -/
theorem paths_ne_nil_of_ofElement {e : Element} {f : Fork}
    (hRead : ofElement e = .ok (.fork f)) : f.paths ≠ [] := by
  rintro hNone
  cases declares_of_ofElement hRead with
  | fork _ _ _ hSeveral =>
      rw [hNone] at hSeveral
      exact absurd hSeveral (by decide)

end Node
end WorkflowDag
