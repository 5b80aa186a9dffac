import WorkflowDag.Conversion

/-!
# Computations that succeed

A computation made of several steps succeeds exactly when all of its steps do.  The statements here
take such a computation apart, so that later proofs need not look at how failures are passed on.
-/

namespace WorkflowDag

section Except

variable {ε α β : Type}

theorem ok_bind (a : α) (f : α → Except ε β) : (Except.ok a >>= f) = f a := rfl

theorem exists_ok_of_isOk {x : Except ε α} (hOk : x.isOk = true) : ∃ a, x = .ok a := by
  cases x with
  | error e => cases hOk
  | ok a => exact ⟨a, rfl⟩

theorem exists_error_of_isOk {x : Except ε α} (hFails : x.isOk = false) : ∃ e, x = .error e := by
  cases x with
  | error e => exact ⟨e, rfl⟩
  | ok a => cases hFails

theorem bind_eq_ok_iff {x : Except ε α} {f : α → Except ε β} {b : β} :
    (x >>= f) = .ok b ↔ ∃ a, x = .ok a ∧ f a = .ok b := by
  cases x with
  | error e =>
      constructor
      · intro hBind
        cases hBind
      · rintro ⟨a, hFirst, -⟩
        cases hFirst
  | ok a =>
      constructor
      · intro hBind
        exact ⟨a, rfl, hBind⟩
      · rintro ⟨a', hFirst, hSecond⟩
        cases hFirst
        exact hSecond

theorem bind_eq_error_iff {x : Except ε α} {f : α → Except ε β} {e : ε} :
    (x >>= f) = .error e ↔ x = .error e ∨ ∃ a, x = .ok a ∧ f a = .error e := by
  cases x with
  | error e' =>
      constructor
      · intro hBind
        cases hBind
        exact Or.inl rfl
      · rintro (hFirst | ⟨a, hFirst, -⟩)
        · cases hFirst
          rfl
        · cases hFirst
  | ok a =>
      constructor
      · intro hBind
        exact Or.inr ⟨a, rfl, hBind⟩
      · rintro (hFirst | ⟨a', hFirst, hSecond⟩)
        · cases hFirst
        · cases hFirst
          exact hSecond

/-- A fold that fails has failed at one of its items. -/
theorem exists_error_of_foldlM {f : β → α → Except ε β} {items : List α} {e : ε} :
    ∀ {before : β}, items.foldlM f before = .error e →
      ∃ item ∈ items, ∃ between, f between item = .error e := by
  induction items with
  | nil =>
      intro before hFold
      cases hFold
  | cons first rest ih =>
      intro before hFold
      rw [List.foldlM_cons] at hFold
      rcases bind_eq_error_iff.mp hFold with hFirst | ⟨between, -, hRest⟩
      · exact ⟨first, List.mem_cons_self, before, hFirst⟩
      · obtain ⟨item, hItem, later, hFails⟩ := ih hRest
        exact ⟨item, List.mem_cons_of_mem first hItem, later, hFails⟩

theorem map_eq_ok_iff {x : Except ε α} {f : α → β} {b : β} :
    x.map f = .ok b ↔ ∃ a, x = .ok a ∧ f a = b := by
  cases x <;> simp [Except.map]

theorem map_eq_error_iff {x : Except ε α} {f : α → β} {e : ε} :
    x.map f = .error e ↔ x = .error e := by
  cases x <;> simp [Except.map]

theorem mapError_eq_error_iff {ε' : Type} {x : Except ε α} {f : ε → ε'} {e' : ε'} :
    x.mapError f = .error e' ↔ ∃ e, x = .error e ∧ f e = e' := by
  cases x with
  | error e =>
      constructor
      · intro hError
        exact ⟨e, rfl, Except.error.inj hError⟩
      · rintro ⟨_, ⟨⟩, rfl⟩
        rfl
  | ok a =>
      constructor
      · intro hError
        cases hError
      · rintro ⟨e, hError, -⟩
        cases hError

theorem mapError_eq_ok_iff {ε' : Type} {x : Except ε α} {f : ε → ε'} {a : α} :
    x.mapError f = .ok a ↔ x = .ok a := by
  cases x with
  | error e =>
      constructor
      · intro hError
        cases hError
      · intro hError
        cases hError
  | ok b =>
      constructor
      · intro hOk
        cases hOk
        rfl
      · intro hOk
        cases hOk
        rfl

end Except

/-- Folds agree when their steps agree on the items. -/
theorem foldlM_congr_of_mem {m : Type → Type} [Monad m] {α β : Type} {f g : β → α → m β}
    {items : List α} :
    (∀ between, ∀ item ∈ items, f between item = g between item) →
      ∀ before : β, items.foldlM f before = items.foldlM g before := by
  induction items with
  | nil => exact fun _ before => rfl
  | cons first rest ih =>
      intro hSame before
      rw [List.foldlM_cons, List.foldlM_cons, hSame before first List.mem_cons_self]
      exact bind_congr (ih fun between item hItem =>
        hSame between item (List.mem_cons_of_mem first hItem))

/-- A document is converted when it can be read, its tasks can be made and a module can be
written. -/
theorem convert_eq_ok_iff {source : String} {options : ConversionOptions} {c : Conversion} :
    (convert source options).result = .ok c ↔
      (Workflow.read source).result = .ok c.workflow ∧
      (TaskGraph.ofWorkflow c.workflow options.transform).result = .ok c.graph ∧
      (c.graph.emit options.dag).result = .ok c.text := by
  unfold convert
  simp only [Traced.result_bind, Traced.result_within, Traced.result_pure, bind_eq_ok_iff]
  constructor
  · rintro ⟨workflow, hRead, graph, hGraph, text, hText, hResult⟩
    cases hResult
    exact ⟨hRead, hGraph, hText⟩
  · rintro ⟨hRead, hGraph, hText⟩
    exact ⟨_, hRead, _, hGraph, _, hText, rfl⟩

/-- What is left to do once a document has been read. -/
theorem convert_of_read {source : String} {w : Workflow} (options : ConversionOptions)
    (hRead : (Workflow.read source).result = .ok w) :
    (convert source options).result =
      ((TaskGraph.ofWorkflow w options.transform).result >>= fun g =>
        (g.emit options.dag).result >>= fun text => .ok ⟨w, g, text⟩) := by
  unfold convert
  simp only [Traced.result_bind, Traced.result_within, Traced.result_pure, hRead, ok_bind]

end WorkflowDag
