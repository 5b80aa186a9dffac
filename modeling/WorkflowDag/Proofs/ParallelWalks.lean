import Mathlib.Data.List.Forall2
import WorkflowDag.Proofs.WalkSound

/-!
# Two walks side by side

Two walks that look up the same nodes and joins, give the tasks the same bodies and resolve
decisions in the same way take the same steps.  `Alike` compares their results: the second returns
what the first returns and fails as the first fails, unless the first has failed by an error of a
given kind.  Then nothing is said about the second, so the first may be the stricter of the two.

`Parallel` collects what the two walks have to agree on, and only at the names they meet.

Main statement: `ofWorkflow_alike`.
-/

namespace WorkflowDag

/-- The second computation gives what the first gives, unless the first breaks off. -/
inductive Alike {ε α β : Type} (Breaks : ε → Prop) (Same : α → β → Prop) :
    Except ε α → Except ε β → Prop
  | broken {e : ε} (second : Except ε β) (hBreaks : Breaks e) : Alike Breaks Same (.error e) second
  | failed (e : ε) : Alike Breaks Same (.error e) (.error e)
  | returned {a : α} {b : β} (hSame : Same a b) : Alike Breaks Same (.ok a) (.ok b)

namespace Alike

variable {ε α β α' β' : Type} {Breaks : ε → Prop} {Same : α → β → Prop} {Same' : α' → β' → Prop}

theorem of_eq {x y : Except ε α} (hEq : x = y) : Alike Breaks Eq x y := by
  subst hEq
  cases x with
  | error e => exact failed e
  | ok a => exact returned rfl

/-- Computations of which the first never breaks off fail alike or return alike. -/
theorem failed_or_returned {x : Except ε α} {y : Except ε β}
    (hAlike : Alike (fun _ => False) Same x y) :
    (∃ e, x = .error e ∧ y = .error e) ∨ ∃ a b, x = .ok a ∧ y = .ok b ∧ Same a b := by
  cases hAlike with
  | broken _ hBreaks => exact hBreaks.elim
  | failed e => exact Or.inl ⟨e, rfl, rfl⟩
  | returned hSame => exact Or.inr ⟨_, _, rfl, rfl, hSame⟩

theorem eq_ok {a : α} {y : Except ε α} (hAlike : Alike Breaks Eq (.ok a) y) : y = .ok a := by
  cases hAlike with
  | returned hSame => rw [hSame]

theorem breaks {e : ε} {b : β} (hAlike : Alike Breaks Same (.error e) (.ok b)) : Breaks e := by
  cases hAlike with
  | broken _ hBreaks => exact hBreaks

theorem mono {Breaks₂ : ε → Prop} {Same₂ : α → β → Prop} {x : Except ε α} {y : Except ε β}
    (hAlike : Alike Breaks Same x y) (hBreaks : ∀ e, Breaks e → Breaks₂ e)
    (hSame : ∀ a b, Same a b → Same₂ a b) : Alike Breaks₂ Same₂ x y := by
  cases hAlike with
  | broken _ hBroken => exact broken _ (hBreaks _ hBroken)
  | failed e => exact failed e
  | returned hReturned => exact returned (hSame _ _ hReturned)

theorem bind {x : Except ε α} {y : Except ε β} {f : α → Except ε α'} {g : β → Except ε β'}
    (hFirst : Alike Breaks Same x y)
    (hNext : ∀ a b, Same a b → Alike Breaks Same' (f a) (g b)) :
    Alike Breaks Same' (x >>= f) (y >>= g) := by
  cases hFirst with
  | broken _ hBreaks => exact broken _ hBreaks
  | failed e => exact failed e
  | returned hSame => exact hNext _ _ hSame

/-- A check that both make alike. -/
theorem bind_check {x : Except ε Unit} {f : Unit → Except ε α'} {g : Unit → Except ε β'}
    (hNext : Alike Breaks Same' (f ()) (g ())) : Alike Breaks Same' (x >>= f) (x >>= g) :=
  bind (of_eq rfl : Alike Breaks Eq x x) fun _ _ _ => hNext

theorem map {x : Except ε α} {y : Except ε β} {f : α → α'} {g : β → β'}
    (hFirst : Alike Breaks Same x y) (hNext : ∀ a b, Same a b → Same' (f a) (g b)) :
    Alike Breaks Same' (x.map f) (y.map g) := by
  cases hFirst with
  | broken _ hBreaks => exact broken _ hBreaks
  | failed e => exact failed e
  | returned hSame => exact returned (hNext _ _ hSame)

theorem mapError {ε' : Type} {Breaks' : ε' → Prop} {label : ε → ε'} {x : Except ε α}
    {y : Except ε β} (hFirst : Alike Breaks Same x y) (hLabel : ∀ e, Breaks e → Breaks' (label e)) :
    Alike Breaks' Same (x.mapError label) (y.mapError label) := by
  cases hFirst with
  | broken _ hBreaks => exact broken _ (hLabel _ hBreaks)
  | failed e => exact failed (label e)
  | returned hSame => exact returned hSame

end Alike

/-- Folds go alike when each of their steps does. -/
theorem Alike.foldlM {α β β' : Type} {Breaks : Error → Prop} {Same : β → β' → Prop}
    {f : β → α → Traced β} {g : β' → α → Traced β'} {items : List α} :
    (∀ item ∈ items, ∀ b b', Same b b' → Alike Breaks Same (f b item).result (g b' item).result) →
      ∀ b b', Same b b' →
        Alike Breaks Same (items.foldlM f b).result (items.foldlM g b').result := by
  induction items with
  | nil => exact fun _ b b' hSame => .returned hSame
  | cons first rest ih =>
      intro hStep b b' hSame
      rw [List.foldlM_cons, List.foldlM_cons, Traced.result_bind, Traced.result_bind]
      refine .bind (hStep first List.mem_cons_self b b' hSame) fun b1 b1' hSame1 => ?_
      exact ih (fun item hItem => hStep item (List.mem_cons_of_mem first hItem)) b1 b1' hSame1

namespace Walk

/-- The two walks have found the same, up to the records of decisions. -/
structure State.Matches (Same : ResolvedDecision → ResolvedDecision → Prop) (s s' : State) :
    Prop where
  tasks : s.tasks = s'.tasks
  followed : s.followed = s'.followed
  gathered : s.gathered = s'.gathered
  decisions : List.Forall₂ Same s.decisions s'.decisions

/-- What two walks agree on at the names that they meet. -/
structure Parallel (w w' : Workflow) (options options' : TaskOptions) (scope scope' : Scope)
    (Met : String → Prop) (Breaks : Error → Prop)
    (Same : ResolvedDecision → ResolvedDecision → Prop) : Prop where
  find? : ∀ {name}, Met name → Workflow.find? w.nodes name = Workflow.find? w'.nodes name
  closing? : ∀ {name f}, Met name → Workflow.find? w.nodes name = some (.fork f) →
    Workflow.closing? w.closingJoins name = Workflow.closing? w'.closingJoins name
  target : ∀ {name target}, Met name → Workflow.Leads w.nodes name target → Met target
  join : ∀ {name f join}, Met name → Workflow.find? w.nodes name = some (.fork f) →
    Workflow.closing? w.closingJoins name = some join → Met join
  body : ∀ {name node owner}, Met name → Workflow.find? w.nodes name = some node →
    Owner.ofNode? node = some owner → Alike Breaks Eq (bodyOf scope owner) (bodyOf scope' owner)
  decision : ∀ {name d}, Met name → Workflow.find? w.nodes name = some (.decision d) →
    Alike Breaks Same (resolveDecision options scope d) (resolveDecision options' scope' d)
  named : ∀ {record record'}, Same record record' → record.decision = record'.decision

section

variable {w w' : Workflow} {options options' : TaskOptions} {scope scope' : Scope}
  {Met : String → Prop} {Breaks : Error → Prop}
  {Same : ResolvedDecision → ResolvedDecision → Prop} {s s' : State}

theorem State.Matches.withTask (hMatches : s.Matches Same s') {owner : Owner}
    (hBody : Alike Breaks Eq (bodyOf scope owner) (bodyOf scope' owner)) :
    Alike Breaks (State.Matches Same) (s.withTask scope owner) (s'.withTask scope' owner) := by
  unfold State.withTask
  rw [← hMatches.tasks]
  dsimp only
  split
  · split
    · exact .returned hMatches
    · exact .failed _
  · refine hBody.bind fun body body' hSame => .returned ?_
    subst hSame
    exact ⟨by rw [hMatches.tasks], hMatches.followed, hMatches.gathered, hMatches.decisions⟩

theorem State.Matches.addDependencies (hMatches : s.Matches Same s') (id : String)
    (incoming : List Dependency) :
    (s.addDependencies id incoming).Matches Same (s'.addDependencies id incoming) := by
  unfold State.addDependencies
  exact ⟨by rw [hMatches.tasks], hMatches.followed, hMatches.gathered, hMatches.decisions⟩

theorem any_decision_eq {records records' : List ResolvedDecision}
    (hNamed : ∀ {record record'}, Same record record' → record.decision = record'.decision)
    (hRecords : List.Forall₂ Same records records') (name : String) :
    (records.any fun record => record.decision == name) =
      records'.any fun record => record.decision == name := by
  induction hRecords with
  | nil => rfl
  | cons hSame _ ih => rw [List.any_cons, List.any_cons, hNamed hSame, ih]

theorem State.Matches.resolve (hMatches : s.Matches Same s')
    (hNamed : ∀ {record record'}, Same record record' → record.decision = record'.decision)
    {d : Decision} (hDecision : Alike Breaks Same (resolveDecision options scope d)
      (resolveDecision options' scope' d)) :
    Alike Breaks (State.Matches Same) (s.resolve options scope d).result
      (s'.resolve options' scope' d).result := by
  unfold State.resolve
  rw [any_decision_eq hNamed hMatches.decisions]
  split
  · exact .returned hMatches
  · simp only [Traced.result_bind, Traced.result_ofExcept, Traced.result_tell, Traced.result_pure]
    refine hDecision.bind fun record record' hSame => .returned ?_
    exact ⟨hMatches.tasks, hMatches.followed, hMatches.gathered,
      List.rel_append hMatches.decisions (.cons hSame .nil)⟩

theorem State.Matches.release (hMatches : s.Matches Same s') (join : String) :
    (s.release join).1 = (s'.release join).1 ∧
      (s.release join).2.Matches Same (s'.release join).2 := by
  unfold State.release
  rw [← hMatches.gathered]
  split
  · split
    · exact ⟨rfl, hMatches.tasks, hMatches.followed, rfl, hMatches.decisions⟩
    · exact ⟨rfl, hMatches⟩
  · exact ⟨rfl, hMatches⟩

/-- Parallel walks give the same. -/
theorem walk_alike (hParallel : Parallel w w' options options' scope scope' Met Breaks Same)
    (steps : Nat) :
    ∀ (path : List String) (name : String) (incoming : List Dependency) (s s' : State),
      Met name → s.Matches Same s' →
      Alike Breaks (State.Matches Same) (walk w options scope steps path name incoming s).result
        (walk w' options' scope' steps path name incoming s').result := by
  induction steps with
  | zero => exact fun path name incoming s s' _ _ => .failed _
  | succ steps ih =>
      intro path name incoming s s' hMet hMatches
      rw [walk, walk, ← hParallel.find? hMet]
      cases hFind : Workflow.find? w.nodes name with
      | none => exact .failed _
      | some node =>
          cases node with
          | finish endName => exact .returned hMatches
          | kill killName message =>
              simp only [Traced.result_bind, Traced.result_ofExcept, Traced.result_pure]
              refine (hMatches.withTask (hParallel.body hMet hFind rfl)).bind
                fun s1 s1' hMatches1 => ?_
              exact .returned (hMatches1.addDependencies _ _)
          | start target =>
              have hCross : w.Crosses name .plain target := .start hFind
              simp only [Traced.result_bind, Traced.result_ofExcept]
              exact .bind_check (ih _ _ _ _ _ (hParallel.target hMet hCross.leads) hMatches)
          | action a =>
              simp only [Traced.result_bind, Traced.result_ofExcept]
              refine .bind_check ?_
              refine (hMatches.withTask (hParallel.body hMet hFind rfl)).bind
                fun s1 s1' hMatches1 => ?_
              have hMatches2 := hMatches1.addDependencies (Task.idOf name) incoming
              rw [← hMatches2.followed]
              split
              · exact .returned hMatches2
              · simp only [Traced.result_bind]
                refine Alike.bind
                  (ih _ _ _ _ _ (hParallel.target hMet (Workflow.leads_ok hFind)) ?_)
                  fun s3 s3' hMatches3 => ?_
                · exact ⟨hMatches2.tasks, by rw [hMatches2.followed], hMatches2.gathered,
                    hMatches2.decisions⟩
                · exact ih _ _ _ _ _ (hParallel.target hMet (Workflow.leads_error hFind)) hMatches3
          | decision d =>
              simp only [Traced.result_bind, Traced.result_ofExcept]
              refine .bind_check ?_
              refine (hMatches.resolve hParallel.named (hParallel.decision hMet hFind)).bind
                fun s1 s1' hMatches1 => ?_
              refine Alike.foldlM (fun branch hBranch between between' hBetween => ?_) _ _ hMatches1
              obtain ⟨caseIndex, guard, -, hCross⟩ := crosses_of_mem_branchesOf hFind hBranch
              exact ih _ _ _ _ _ (hParallel.target hMet hCross.leads) hBetween
          | fork f =>
              rw [← hParallel.closing? hMet hFind]
              cases hClosing : Workflow.closing? w.closingJoins name with
              | none => exact .failed _
              | some join =>
                  have hMetJoin : Met join := hParallel.join hMet hFind hClosing
                  simp only [← hParallel.find? hMetJoin]
                  split
                  next joinName behind hJoin =>
                    simp only [Traced.result_bind, Traced.result_ofExcept]
                    refine .bind_check ?_
                    have hEntered : State.Matches Same
                        { s with gathered := (join, []) :: s.gathered }
                        { s' with gathered := (join, []) :: s'.gathered } :=
                      ⟨hMatches.tasks, hMatches.followed, by rw [hMatches.gathered],
                        hMatches.decisions⟩
                    refine (Alike.foldlM ?_ _ _ hEntered).bind fun s2 s2' hMatches2 => ?_
                    · intro target hPath between between' hBetween
                      have hTarget := hParallel.target hMet (Workflow.leads_path hFind hPath)
                      exact ih _ _ _ _ _ hTarget hBetween
                    · obtain ⟨hEdges, hMatches3⟩ := hMatches2.release join
                      rw [hEdges]
                      have hBehind : Workflow.Leads w.nodes join behind :=
                        (Workflow.leads_iff hJoin).mpr ⟨_, List.mem_singleton.mpr rfl, rfl⟩
                      exact ih _ _ _ _ _ (hParallel.target hMetJoin hBehind) hMatches3
                  next => exact .failed _
          | join joinName target =>
              dsimp only
              rw [← hMatches.gathered]
              split
              next gathered _ =>
                exact .returned ⟨hMatches.tasks, hMatches.followed, rfl, hMatches.decisions⟩
              next => exact .failed _

/-- Parallel walks through workflows of one size make the same tasks and matching decisions. -/
theorem ofWorkflow_alike
    (hParallel : Parallel w w' options options' (scopeOf w options) (scopeOf w' options') Met Breaks
      Same) (hStart : Met Node.startName) (hSize : w.nodes.length = w'.nodes.length) :
    Alike Breaks (fun g g' =>
        g = ⟨w.name, g.tasks, g.decisions, (scopeOf w options).definitions⟩ ∧
        g' = ⟨w'.name, g.tasks, g'.decisions, (scopeOf w' options').definitions⟩ ∧
        List.Forall₂ Same g.decisions g'.decisions)
      (TaskGraph.ofWorkflow w options).result (TaskGraph.ofWorkflow w' options').result := by
  rw [TaskGraph.ofWorkflow, TaskGraph.ofWorkflow, Traced.result_bind, Traced.result_bind, hSize]
  refine (walk_alike hParallel _ _ _ _ _ _ hStart ⟨rfl, rfl, rfl, .nil⟩).bind
    fun s s' hMatches => .returned ⟨rfl, ?_, hMatches.decisions⟩
  rw [hMatches.tasks]
  rfl

end

end Walk
end WorkflowDag
