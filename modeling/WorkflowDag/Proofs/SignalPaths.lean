import WorkflowDag.Proofs.ControlPath
import WorkflowDag.Proofs.KeyTexts

/-!
# Signals on control paths

Of a control path, the node at its end waits only on the last signal and on the join crossed since.
`Brings` keeps just these two along the transitions of a workflow; it is the shadow of control paths
and their traces (`ControlPath.brings`, `Brings.exists_controlPath`).

A dependency also tells what leads into each decision on its way: its passages.  They are the
shadows of the control paths to these decisions (`ControlPath.exists_of_passage`), and whatever
reaches such a decision goes on as the dependency does (`ControlPath.passage_of_passage`).
-/

namespace WorkflowDag

namespace Dependency

/-- The signal that a dependency waits on, with the join at which it is gathered. -/
def joined? (d : Dependency) : Option JoinedSignal :=
  d.signal?.map fun signal => ⟨signal, d.join⟩

theorem mem_joinedSignals {dependencies : List Dependency} {e : JoinedSignal} :
    e ∈ joinedSignals dependencies ↔ ∃ d ∈ dependencies, d.joined? = some e :=
  List.mem_filterMap

theorem joined?_eq_some_iff {d : Dependency} {e : JoinedSignal} :
    d.joined? = some e ↔ d.signal? = some e.signal ∧ d.join = e.join := by
  obtain ⟨signal, join⟩ := e
  unfold joined?
  rw [Option.map_eq_some_iff]
  constructor
  · rintro ⟨found, hFound, hSame⟩
    cases hSame
    exact ⟨hFound, rfl⟩
  · rintro ⟨hSignal, hJoin⟩
    exact ⟨signal, hSignal, by rw [hJoin]⟩

/-- A dependency waits on a signal unless it is bare. -/
theorem signal?_eq_none_iff {d : Dependency} : d.signal? = none ↔ Walk.isBare d = true := by
  obtain ⟨origin, outcome, branches, join⟩ := d
  cases branches with
  | nil => cases origin <;> cases outcome <;> simp [signal?, originSignal?, Walk.isBare]
  | cons step rest =>
      have hLast : (step :: rest).getLast? = some ((step :: rest).getLast (by simp)) :=
        List.getLast?_eq_some_getLast _
      simp [signal?, Walk.isBare, hLast]

theorem isBare_of_signal? {d : Dependency} {signal : Signal} (hSignal : d.signal? = some signal) :
    Walk.isBare d = false := by
  rw [Bool.eq_false_iff, Ne, ← signal?_eq_none_iff, hSignal]
  exact Option.some_ne_none signal

/-- The last of some branches, or else the signal before them all. -/
private def signalBehind (before : Option Signal) (branches : List PassedBranch) : Option Signal :=
  match branches.getLast? with
  | some step => some (.branch step)
  | none => before

private theorem signalBehind_cons (before : Option Signal) (first : PassedBranch)
    (rest : List PassedBranch) :
    signalBehind before (first :: rest) = signalBehind (some (.branch first)) rest := by
  cases rest with
  | nil => rfl
  | cons second rest => rw [signalBehind, signalBehind, List.getLast?_cons_cons]; rfl

private theorem passagesFrom_concat (branches : List PassedBranch) (step : PassedBranch) :
    ∀ before : Option Signal, passagesFrom before (branches ++ [step]) =
      passagesFrom before branches ++
        [(step.decision,
          (signalBehind before branches).map fun signal => ⟨signal, step.join⟩)] := by
  induction branches with
  | nil => exact fun before => rfl
  | cons first rest ih =>
      intro before
      rw [List.cons_append, passagesFrom, ih, passagesFrom, signalBehind_cons, List.cons_append]

/-- One more branch on a way is one more passage. -/
theorem passages_concat (d : Dependency) (step : PassedBranch) (hJoin : step.join = d.join)
    (join : Option String) :
    passages { d with branches := d.branches ++ [step], join := join } =
      d.passages ++ [(step.decision, d.joined?)] := by
  have hConcat := passagesFrom_concat d.branches step d.originSignal?
  rw [hJoin] at hConcat
  exact hConcat

theorem signal?_concat (d : Dependency) (step : PassedBranch) (join : Option String) :
    signal? { d with branches := d.branches ++ [step], join := join } = some (.branch step) := by
  simp [signal?]

/-- The passages of a dependency are the branches it passes. -/
theorem map_fst_passages (d : Dependency) :
    d.passages.map Prod.fst = d.branches.map PassedBranch.decision := by
  have hFrom : ∀ (branches : List PassedBranch) (before : Option Signal),
      (passagesFrom before branches).map Prod.fst = branches.map PassedBranch.decision := by
    intro branches
    induction branches with
    | nil => exact fun before => rfl
    | cons step rest ih =>
        intro before
        rw [passagesFrom, List.map_cons, List.map_cons, ih]
  exact hFrom d.branches d.originSignal?

/-- A branch that leads into a decision on a way is passed on that way. -/
theorem mem_branches_of_passage {d : Dependency} {decision : String} {step : PassedBranch}
    {join : Option String} (hPassage : (decision, some ⟨.branch step, join⟩) ∈ d.passages) :
    step ∈ d.branches := by
  have hFrom : ∀ (branches : List PassedBranch) (before : Option Signal),
      (decision, some ⟨Signal.branch step, join⟩) ∈ passagesFrom before branches →
      step ∈ branches ∨ before = some (.branch step) := by
    intro branches
    induction branches with
    | nil => exact fun before hMem => absurd hMem List.not_mem_nil
    | cons first rest ih =>
        intro before hMem
        rw [passagesFrom] at hMem
        rcases List.mem_cons.mp hMem with hFirst | hRest
        · obtain ⟨signal, hSignal, hSame⟩ := Option.map_eq_some_iff.mp (Prod.mk.inj hFirst).2.symm
          cases hSame
          exact Or.inr hSignal
        · rcases ih _ hRest with hLater | hSame
          · exact Or.inl (List.mem_cons_of_mem _ hLater)
          · cases hSame
            exact Or.inl List.mem_cons_self
  rcases hFrom d.branches d.originSignal? hPassage with hMem | hOrigin
  · exact hMem
  · unfold originSignal? at hOrigin
    split at hOrigin <;> cases hOrigin

theorem mem_branches_of_signal? {d : Dependency} {step : PassedBranch}
    (hSignal : d.signal? = some (.branch step)) : step ∈ d.branches := by
  unfold signal? at hSignal
  split at hSignal
  next last hLast =>
    cases hSignal
    exact List.mem_of_getLast? hLast
  next =>
    unfold originSignal? at hSignal
    split at hSignal <;> cases hSignal

end Dependency

namespace Crossing

/-- The passage that a crossing adds to the way before it. -/
def passage : Crossing → Dependency → List (String × Option JoinedSignal)
  | branch decision _ _, d => [(decision, d.joined?)]
  | _, _ => []

theorem passages_extend (crossing : Crossing) (d : Dependency) :
    (crossing.extend d).passages = d.passages ++ crossing.passage d := by
  cases crossing with
  | plain => simp [extend, passage]
  | join name => simp [extend, passage, Dependency.passages, Dependency.originSignal?]
  | branch decision caseIndex guard =>
      exact d.passages_concat ⟨decision, caseIndex, guard, d.join⟩ rfl none

theorem signal?_extend_branch (decision : String) (caseIndex : Option Nat) (guard : Option String)
    (d : Dependency) :
    ((branch decision caseIndex guard).extend d).signal? =
      some (.branch ⟨decision, caseIndex, guard, d.join⟩) :=
  d.signal?_concat ⟨decision, caseIndex, guard, d.join⟩ none

/-- What is crossed later takes no passage away. -/
theorem passages_subset_append (origin : Origin) (before after : List Crossing) :
    (trace origin before).passages ⊆ (trace origin (before ++ after)).passages := by
  induction after generalizing before with
  | nil =>
      rw [List.append_nil]
      exact List.Subset.refl _
  | cons crossing after ih =>
      have hAfter := ih (before ++ [crossing])
      rw [List.append_assoc, List.singleton_append, trace_concat, passages_extend] at hAfter
      exact List.Subset.trans (List.subset_append_left _ _) hAfter

/-- A branch that is crossed leaves a passage with what led into it. -/
theorem passage_mem_trace (origin : Origin) (before after : List Crossing) (decision : String)
    (caseIndex : Option Nat) (guard : Option String) :
    (decision, (trace origin before).joined?) ∈
      (trace origin (before ++ branch decision caseIndex guard :: after)).passages := by
  have hFirst : (decision, (trace origin before).joined?) ∈
      (trace origin (before ++ [branch decision caseIndex guard])).passages := by
    rw [trace_concat, passages_extend]
    exact List.mem_append_right _ (List.mem_singleton.mpr rfl)
  have hAfter := passages_subset_append origin (before ++ [branch decision caseIndex guard]) after
  rw [List.append_assoc, List.singleton_append] at hAfter
  exact hAfter hFirst

end Crossing

namespace Workflow

/-- The last signal on a way to a node, none on a way from the start that passes no branch, and the
join crossed since. -/
inductive Brings (w : Workflow) : Option Signal → Option String → String → Prop
  | start : Brings w none none Node.startName
  | ok {name : String} {a : Action} (hReachable : Reachable w.nodes name)
      (hFind : find? w.nodes name = some (.action a)) :
      Brings w (some (.success (Task.idOf name))) none a.ok
  | error {name : String} {a : Action} (hReachable : Reachable w.nodes name)
      (hFind : find? w.nodes name = some (.action a)) :
      Brings w (some (.failure (Task.idOf name))) none a.error
  | plain {signal? : Option Signal} {join? : Option String} {name target : String}
      (hBrings : Brings w signal? join? name) (hCross : Crosses w name .plain target) :
      Brings w signal? join? target
  | join {signal? : Option Signal} {join? : Option String} {name joinName target : String}
      (hBrings : Brings w signal? join? name) (hCross : Crosses w name (.join joinName) target) :
      Brings w signal? (some joinName) target
  | branch {signal? : Option Signal} {join? : Option String} {name decision target : String}
      {caseIndex : Option Nat} {guard : Option String} (hBrings : Brings w signal? join? name)
      (hCross : Crosses w name (.branch decision caseIndex guard) target) :
      Brings w (some (.branch ⟨decision, caseIndex, guard, join?⟩)) none target

/-- The crossings lead from one node to another. -/
inductive Crossed (w : Workflow) : String → List Crossing → String → Prop
  | refl (name : String) : Crossed w name [] name
  | cross {name middle target : String} {crossings : List Crossing} {crossing : Crossing}
      (hCrossed : Crossed w name crossings middle) (hCross : Crosses w middle crossing target) :
      Crossed w name (crossings ++ [crossing]) target

section

variable {w : Workflow} {origin : Origin} {crossings : List Crossing} {name : String}

theorem ControlPath.append {before after : List Crossing} {middle : String}
    (hPath : ControlPath w origin before middle) (hCrossed : Crossed w middle after name) :
    ControlPath w origin (before ++ after) name := by
  induction hCrossed with
  | refl => rwa [List.append_nil]
  | cross _ hCross ih =>
      rw [← List.append_assoc]
      exact ih.cross hCross

/-- A control path brings the last signal of its trace. -/
theorem ControlPath.brings (hPath : ControlPath w origin crossings name) :
    Brings w (Crossing.trace origin crossings).signal? (Crossing.trace origin crossings).join
      name := by
  induction hPath with
  | start => exact .start
  | ok hReachable hFind => exact .ok hReachable hFind
  | error hReachable hFind => exact .error hReachable hFind
  | @cross origin crossings crossing name target _ hCross ih =>
      rw [Crossing.trace_concat]
      cases crossing with
      | plain => exact .plain ih hCross
      | join joinName => exact .join ih hCross
      | branch decision caseIndex guard =>
          rw [Crossing.signal?_extend_branch]
          exact .branch ih hCross

/-- Whatever is brought to a node comes on a control path. -/
theorem Brings.exists_controlPath {signal? : Option Signal} {join? : Option String}
    (hBrings : Brings w signal? join? name) :
    ∃ origin crossings, ControlPath w origin crossings name ∧
      (Crossing.trace origin crossings).signal? = signal? ∧
      (Crossing.trace origin crossings).join = join? := by
  induction hBrings with
  | start => exact ⟨.start, [], .start, rfl, rfl⟩
  | ok hReachable hFind => exact ⟨_, [], .ok hReachable hFind, rfl, rfl⟩
  | error hReachable hFind => exact ⟨_, [], .error hReachable hFind, rfl, rfl⟩
  | plain _ hCross ih =>
      obtain ⟨origin, crossings, hPath, hSignal, hJoin⟩ := ih
      refine ⟨origin, crossings ++ [.plain], hPath.cross hCross, ?_⟩
      rw [Crossing.trace_concat]
      exact ⟨hSignal, hJoin⟩
  | @join _ _ _ joinName _ _ hCross ih =>
      obtain ⟨origin, crossings, hPath, hSignal, -⟩ := ih
      refine ⟨origin, crossings ++ [.join joinName], hPath.cross hCross, ?_⟩
      rw [Crossing.trace_concat]
      exact ⟨hSignal, rfl⟩
  | @branch _ _ _ decision _ caseIndex guard _ hCross ih =>
      obtain ⟨origin, crossings, hPath, -, hJoin⟩ := ih
      refine ⟨origin, crossings ++ [.branch decision caseIndex guard], hPath.cross hCross, ?_⟩
      rw [Crossing.trace_concat, Crossing.signal?_extend_branch, hJoin]
      exact ⟨rfl, rfl⟩

/-- A passage comes from a control path to its decision, which the rest of the way goes on from. -/
theorem ControlPath.exists_of_passage (hPath : ControlPath w origin crossings name)
    {decision : String} {e? : Option JoinedSignal}
    (hPassage : (decision, e?) ∈ (Crossing.trace origin crossings).passages) :
    ∃ before caseIndex guard target after,
      ControlPath w origin before decision ∧
      Crosses w decision (.branch decision caseIndex guard) target ∧
      Crossed w target after name ∧ e? = (Crossing.trace origin before).joined? := by
  induction hPath with
  | start => exact absurd hPassage List.not_mem_nil
  | ok hReachable hFind => exact absurd hPassage List.not_mem_nil
  | error hReachable hFind => exact absurd hPassage List.not_mem_nil
  | @cross origin crossings crossing name target hPath hCross ih =>
      rw [Crossing.trace_concat, Crossing.passages_extend] at hPassage
      rcases List.mem_append.mp hPassage with hEarlier | hLast
      · obtain ⟨before, caseIndex, guard, next, after, hBefore, hBranch, hAfter, hSame⟩ :=
          ih hEarlier
        exact ⟨before, caseIndex, guard, next, after ++ [crossing], hBefore, hBranch,
          hAfter.cross hCross, hSame⟩
      · -- The crossing itself is the branch, so it starts at its own decision.
        cases crossing with
        | plain => exact absurd hLast List.not_mem_nil
        | join joinName => exact absurd hLast List.not_mem_nil
        | branch other caseIndex guard =>
            cases List.mem_singleton.mp hLast
            obtain ⟨rfl, -⟩ := hCross.exists_decision
            exact ⟨crossings, caseIndex, guard, target, [], hPath, hCross, .refl target, rfl⟩

/-- Whatever comes to a decision on a way goes on as the way does, and leaves a passage. -/
theorem ControlPath.passage_of_passage (hPath : ControlPath w origin crossings name)
    {decision : String} {e? : Option JoinedSignal}
    (hPassage : (decision, e?) ∈ (Crossing.trace origin crossings).passages) {other : Origin}
    {before : List Crossing} (hBefore : ControlPath w other before decision) :
    ∃ longer, ControlPath w other longer name ∧
      (decision, (Crossing.trace other before).joined?) ∈
        (Crossing.trace other longer).passages := by
  obtain ⟨_, caseIndex, guard, target, after, -, hBranch, hAfter, -⟩ :=
    hPath.exists_of_passage hPassage
  refine ⟨before ++ .branch decision caseIndex guard :: after, ?_,
    Crossing.passage_mem_trace other before after decision caseIndex guard⟩
  have hLonger := (hBefore.cross hBranch).append hAfter
  rwa [List.append_assoc, List.singleton_append] at hLonger

end

end Workflow
end WorkflowDag
