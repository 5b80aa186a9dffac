import WorkflowDag.Proofs.PolicedJoins

/-!
# Refusing joins in any order

The two outcomes of an action are walked one after the other.  `exchangeOutcomes` gives the workflow
in which the outcomes of chosen actions change places; its transitions lead to the same nodes and
its forks are closed by the same joins, so a path enters a join from outside in one exactly when it
does in the other.

Whatever the order, a join that is refused is entered from outside, and a join that is clearly
entered from outside is refused.  When no action on a path that enters a join from outside also lies
behind a fork of the join (`Separated`), these are the same, and the order makes no difference.
Without this it does: `refusal_depends_on_order`.

Main statement: `outside_joins_refused`.
-/

namespace WorkflowDag

namespace Node

/-- The node with its outcomes in each other's place, if it is a chosen action. -/
def exchange (chosen : String → Bool) : Node → Node
  | .action a => .action (if chosen a.name then { a with ok := a.error, error := a.ok } else a)
  | node => node

variable {chosen : String → Bool} {node : Node}

@[simp] theorem exchange_name : (node.exchange chosen).name = node.name := by
  cases node with
  | action a =>
      rw [exchange]
      split <;> rfl
  | _ => rfl

@[simp] theorem exchange_kind : (node.exchange chosen).kind = node.kind := by
  cases node <;> rfl

theorem exchange_of_ne_action (hKind : node.kind ≠ .action) : node.exchange chosen = node := by
  cases node with
  | action a => exact absurd rfl hKind
  | _ => rfl

/-- Exchanged outcomes lead to the same nodes. -/
theorem mem_exchange_targets {target : String} :
    target ∈ (node.exchange chosen).transitions.map Transition.target ↔
      target ∈ node.transitions.map Transition.target := by
  cases node with
  | action a =>
      rw [exchange]
      split
      · simp [transitions, or_comm]
      · rfl
  | _ => rfl

end Node

namespace Workflow

/-- The workflow with the outcomes of the chosen actions in each other's place. -/
def exchangeOutcomes (w : Workflow) (chosen : String → Bool) : Workflow :=
  { w with nodes := w.nodes.map (Node.exchange chosen) }

/-- No action on a path that enters a join from outside also lies behind a fork of the join. -/
def Separated (w : Workflow) : Prop :=
  ∀ join name a, isJoin w.nodes join = true → find? w.nodes name = some (.action a) →
    w.Outside join name → Relation.ReflTransGen (w.Avoids join) name join → ¬w.Inside join name

section Exchange

variable {w : Workflow} {nodes : List Node} {chosen : String → Bool} {name join : String}

theorem exchangeOutcomes_none : w.exchangeOutcomes (fun _ => false) = w := by
  have hSame : Node.exchange (fun _ => false) = id := by
    funext node
    cases node <;> rfl
  unfold exchangeOutcomes
  rw [hSame, List.map_id]

theorem find?_exchange :
    find? (nodes.map (Node.exchange chosen)) name = (find? nodes name).map (.exchange chosen) := by
  unfold find?
  rw [List.find?_map]
  congr 2
  funext node
  exact congrArg (· == name) Node.exchange_name

theorem find?_exchange_of_ne_action {node : Node} (hKind : node.kind ≠ .action) :
    find? (nodes.map (Node.exchange chosen)) name = some node ↔ find? nodes name = some node := by
  rw [find?_exchange, Option.map_eq_some_iff]
  constructor
  · rintro ⟨before, hFind, rfl⟩
    rw [Node.exchange_kind] at hKind
    rw [Node.exchange_of_ne_action hKind]
    exact hFind
  · exact fun hFind => ⟨node, hFind, Node.exchange_of_ne_action hKind⟩

theorem leads_exchange : Leads (nodes.map (Node.exchange chosen)) = Leads nodes := by
  funext name target
  unfold Leads targets
  rw [find?_exchange]
  cases find? nodes name with
  | none => rfl
  | some node => exact propext Node.mem_exchange_targets

theorem isJoin_exchange : isJoin (nodes.map (Node.exchange chosen)) name = isJoin nodes name := by
  unfold isJoin
  rw [find?_exchange]
  cases find? nodes name with
  | none => rfl
  | some node => cases node <;> rfl

theorem Hops.exchange {pairs : Pairs} {target : String} (hHops : Hops nodes pairs name target) :
    Hops (nodes.map (Node.exchange chosen)) pairs name target := by
  cases hHops with
  | next hFind hFork hLeads =>
      rw [← leads_exchange] at hLeads
      refine .next (find?_exchange.trans (congrArg _ hFind)) ?_ hLeads
      rw [Node.exchange_kind]
      exact hFork
  | across hPair hLeads =>
      rw [← leads_exchange] at hLeads
      exact .across hPair hLeads

theorem Nested.exchange {pairs : Pairs} (hNested : Nested nodes pairs) :
    Nested (nodes.map (Node.exchange chosen)) pairs := by
  induction hNested with
  | nil => exact .nil
  | concat _ hFind hNew hStarts hSpans hJoin ih =>
      obtain ⟨path, hLeads, hHops⟩ := hSpans
      rw [← leads_exchange] at hLeads
      refine .concat ih ((find?_exchange_of_ne_action (by simp [Node.kind])).mpr hFind) hNew ?_
        ⟨path, hLeads, ?_⟩ (isJoin_exchange.trans hJoin)
      · exact fun path hPath => isJoin_exchange.trans (hStarts path hPath)
      · exact Relation.ReflTransGen.mono (fun _ _ => Hops.exchange) _ _ hHops

theorem Named.exchange (hNamed : Named nodes) : Named (nodes.map (Node.exchange chosen)) where
  distinct := by
    rw [List.map_map]
    have hNames : Node.name ∘ Node.exchange chosen = Node.name := by
      funext node
      exact Node.exchange_name
    rw [hNames]
    exact hNamed.distinct
  nonempty := by
    intro node hNode
    obtain ⟨before, hBefore, rfl⟩ := List.mem_map.mp hNode
    rw [Node.exchange_name]
    exact hNamed.nonempty before hBefore

theorem fork_mem_of_exchange {f : Fork} (hFork : Node.fork f ∈ nodes.map (Node.exchange chosen)) :
    Node.fork f ∈ nodes := by
  obtain ⟨before, hBefore, hSame⟩ := List.mem_map.mp hFork
  have hKind : before.kind ≠ .action := by
    have hSameKind := congrArg Node.kind hSame
    rw [Node.exchange_kind] at hSameKind
    rw [hSameKind]
    simp [Node.kind]
  rw [Node.exchange_of_ne_action hKind] at hSame
  exact hSame ▸ hBefore

/-- A walk can rely on the same in the other order. -/
theorem Walkable.exchange (hWalkable : w.Walkable) (chosen : String → Bool) :
    (w.exchangeOutcomes chosen).Walkable := by
  have hChecked := hWalkable.checked
  refine ⟨⟨hChecked.named.exchange, ?_, hChecked.nested.exchange, ?_, ?_⟩, ?_, ?_⟩
  · obtain ⟨rank, hRank⟩ := hChecked.ranked
    refine ⟨rank, ?_⟩
    unfold IsRank Reachable at hRank ⊢
    rw [exchangeOutcomes, leads_exchange]
    exact hRank
  · intro f hFork path hPath
    exact isJoin_exchange.trans (hChecked.paths f (fork_mem_of_exchange hFork) path hPath)
  · exact fun f hFork => hChecked.closed f (fork_mem_of_exchange hFork)
  · obtain ⟨node, hFind⟩ := hWalkable.start
    exact ⟨_, find?_exchange.trans (congrArg _ hFind)⟩
  · intro name target hLeads
    rw [exchangeOutcomes, leads_exchange] at hLeads
    obtain ⟨node, hFind⟩ := hWalkable.links name target hLeads
    exact ⟨_, find?_exchange.trans (congrArg _ hFind)⟩

theorem avoids_exchange : (w.exchangeOutcomes chosen).Avoids = w.Avoids := by
  funext join name target
  unfold Avoids
  rw [exchangeOutcomes, leads_exchange]
  rfl

theorem outside_exchange : (w.exchangeOutcomes chosen).Outside = w.Outside := by
  funext join
  unfold Outside
  rw [avoids_exchange]

theorem inside_exchange : (w.exchangeOutcomes chosen).Inside = w.Inside := by
  funext join name
  unfold Inside Reachable
  rw [exchangeOutcomes, leads_exchange]
  rfl

theorem enteredOutside_exchange :
    (w.exchangeOutcomes chosen).EnteredOutside join ↔ w.EnteredOutside join := by
  unfold EnteredOutside
  rw [outside_exchange]
  exact and_congr_left fun _ => Bool.eq_iff_iff.mp isJoin_exchange

theorem exists_action_exchange :
    (∃ a, find? (w.exchangeOutcomes chosen).nodes name = some (.action a)) ↔
      ∃ a, find? w.nodes name = some (.action a) := by
  unfold exchangeOutcomes
  rw [find?_exchange]
  cases find? w.nodes name with
  | none => simp
  | some node => cases node <;> simp [Node.exchange]

theorem enteredClearly_exchange :
    (w.exchangeOutcomes chosen).EnteredClearly join ↔ w.EnteredClearly join := by
  have hSteps : (w.exchangeOutcomes chosen).AvoidsClearly join = w.AvoidsClearly join := by
    funext name target
    unfold AvoidsClearly
    rw [avoids_exchange, inside_exchange, exists_action_exchange]
  unfold EnteredClearly
  rw [hSteps]
  exact and_congr_left fun _ => Bool.eq_iff_iff.mp isJoin_exchange

end Exchange

/-- Where no action lies on both sides, every entry from outside is clear. -/
theorem Separated.enteredClearly {w : Workflow} (hSeparated : w.Separated) {join : String}
    (hEntered : w.EnteredOutside join) : w.EnteredClearly join := by
  obtain ⟨hJoin, hOutside⟩ := hEntered
  -- Along the path, each node is come to from outside and still leads to the join.
  have hClear : ∀ name, w.Outside join name → Relation.ReflTransGen (w.Avoids join) name join →
      Relation.ReflTransGen (w.AvoidsClearly join) Node.startName name := by
    intro name hName
    induction hName with
    | refl => exact fun _ => .refl
    | tail hBefore hStep ih =>
        intro hRest
        have hOn := Relation.ReflTransGen.head hStep hRest
        exact (ih hOn).tail
          ⟨hStep, fun ⟨a, hFind⟩ => hSeparated join _ a hJoin hFind hBefore hOn⟩
  exact ⟨hJoin, hClear join hOutside .refl⟩

end Workflow

/-- Making tasks fails with a join that is reached outside of the fork it closes. -/
def RefusesJoin (w : Workflow) (options : TaskOptions) : Prop :=
  ∃ join, (TaskGraph.ofWorkflow w options).result = .error (.task join .outsideFork)

/-- Making tasks fails for no other reason. -/
def RefusesOnlyJoins (w : Workflow) (options : TaskOptions) : Prop :=
  ∀ e, (TaskGraph.ofWorkflow w options).result = .error e → ∃ join, e = .task join .outsideFork

/-- A workflow that has been read is walked in its own order, or with the outcomes of chosen actions
exchanged.  In every order, a join that is refused is entered from outside, and tasks are not made
when a join is clearly entered from outside.  If no action lies on both sides of a fork and nothing
else fails, joins are refused exactly when one is entered from outside, whatever the order. -/
theorem outside_joins_refused {source : String} {w : Workflow} (options : TaskOptions)
    (hRead : (Workflow.read source).result = .ok w) :
    w.exchangeOutcomes (fun _ => false) = w ∧
    ∀ chosen,
      (∀ join, (TaskGraph.ofWorkflow (w.exchangeOutcomes chosen) options).result =
        .error (.task join .outsideFork) → w.EnteredOutside join) ∧
      ((∃ join, w.EnteredClearly join) →
        ∃ e, (TaskGraph.ofWorkflow (w.exchangeOutcomes chosen) options).result = .error e) ∧
      (w.Separated → RefusesOnlyJoins (w.exchangeOutcomes chosen) options →
        (RefusesJoin (w.exchangeOutcomes chosen) options ↔ ∃ join, w.EnteredOutside join)) := by
  refine ⟨Workflow.exchangeOutcomes_none, ?_⟩
  intro chosen
  have hWalkable := (Workflow.walkable_of_read hRead).exchange chosen
  have hOutside : ∀ join, (TaskGraph.ofWorkflow (w.exchangeOutcomes chosen) options).result =
      .error (.task join .outsideFork) → w.EnteredOutside join :=
    fun join hGraph =>
      Workflow.enteredOutside_exchange.mp (enteredOutside_of_ofWorkflow hWalkable hGraph)
  have hClear : (∃ join, w.EnteredClearly join) →
      ∃ e, (TaskGraph.ofWorkflow (w.exchangeOutcomes chosen) options).result = .error e := by
    rintro ⟨join, hEntered⟩
    -- The failure need not be at this join: another may come first, or something else may fail.
    cases hGraph : (TaskGraph.ofWorkflow (w.exchangeOutcomes chosen) options).result with
    | error e => exact ⟨e, rfl⟩
    | ok g =>
        have hUnnoticed :=
          not_enteredClearly_of_ofWorkflow hWalkable.checked.nested hGraph join
        exact absurd (Workflow.enteredClearly_exchange.mpr hEntered) hUnnoticed
  refine ⟨hOutside, hClear, ?_⟩
  intro hSeparated hOnly
  constructor
  · rintro ⟨join, hGraph⟩
    exact ⟨join, hOutside join hGraph⟩
  · rintro ⟨join, hEntered⟩
    obtain ⟨e, hGraph⟩ := hClear ⟨join, hSeparated.enteredClearly hEntered⟩
    obtain ⟨refused, rfl⟩ := hOnly e hGraph
    exact ⟨refused, hGraph⟩

namespace EntryFromOutside

/-- The units of a document whose first action leads to a fork, and on error straight to the join of
the fork. -/
def units : List Char :=
  ["<w name='w'>",
    "<start to='x'/>",
    "<action name='x'><y/><ok to='f'/><error to='j'/></action>",
    "<fork name='f'><path start='a'/><path start='b'/></fork>",
    "<action name='a'><y/><ok to='j'/><error to='e'/></action>",
    "<action name='b'><y/><ok to='j'/><error to='e'/></action>",
    "<join name='j' to='e'/>",
    "<end name='e'/>",
    "</w>"].flatMap String.toList

/-- The document with these units. -/
def source : String :=
  String.ofList units

/-- The workflow of the document. -/
def workflow : Workflow where
  name := "w"
  nodes :=
    [.start "x", .action { name := "x", actionType := "y", ok := "f", error := "j" },
      .fork ⟨"f", ["a", "b"], none⟩,
      .action { name := "a", actionType := "y", ok := "j", error := "e" },
      .action { name := "b", actionType := "y", ok := "j", error := "e" }, .join "j" "e",
      .finish "e"]
  closingJoins := [("f", "j")]
  defaults := .empty

theorem read_source : (Workflow.read source).result = .ok workflow :=
  Workflow.read_ofList (by decide +kernel)

theorem ofWorkflow_exchanged :
    (TaskGraph.ofWorkflow (workflow.exchangeOutcomes (· == "x")) {}).result =
      .error (.task "j" .outsideFork) := by
  decide +kernel

theorem enteredOutside : workflow.EnteredOutside "j" := by
  have hStart : workflow.Avoids "j" Node.startName "x" := by
    unfold Workflow.Avoids Workflow.Leads Workflow.Opens
    decide
  have hError : workflow.Avoids "j" "x" "j" := by
    unfold Workflow.Avoids Workflow.Leads Workflow.Opens
    decide
  exact ⟨by decide, .tail (.single hStart) hError⟩

/-- Outside of the fork of the join there is one action. -/
theorem mem_of_outside {name : String} (hOutside : workflow.Outside "j" name) :
    name ∈ [Node.startName, "x", "f", "j", "e"] := by
  have hClosed : ∀ before ∈ [Node.startName, "x", "f", "j", "e"],
      ∀ target ∈ Workflow.targets workflow.nodes before,
        ¬Workflow.closing? workflow.closingJoins before = some "j" →
        target ∈ [Node.startName, "x", "f", "j", "e"] := by
    decide
  induction hOutside with
  | refl => decide
  | tail _ hStep ih => exact hClosed _ ih _ hStep.1 hStep.2

theorem mem_of_inside {name : String} (hInside : workflow.Inside "j" name) :
    name ∈ ["a", "b", "j", "e"] := by
  obtain ⟨fork, -, hOpens, hBehind⟩ := hInside
  have hClosed : ∀ before ∈ ["f", "a", "b", "j", "e"],
      ∀ target ∈ Workflow.targets workflow.nodes before, target ∈ ["a", "b", "j", "e"] := by
    decide
  have hFork : fork = "f" :=
    (Prod.mk.inj (List.mem_singleton.mp (Workflow.closing?_mem hOpens))).1
  induction hBehind with
  | single hLeads => exact hClosed _ (hFork ▸ List.mem_cons_self) _ hLeads
  | tail _ hLeads ih => exact hClosed _ (List.mem_cons_of_mem _ ih) _ hLeads

theorem separated : workflow.Separated := by
  intro join name a hJoin hFind hOutside _ hInside
  have hOnly : join = "j" := by
    obtain ⟨joinName, behind, hAtJoin⟩ := Workflow.isJoin_iff.mp hJoin
    have hMem := Workflow.mem_of_find? hAtJoin
    have hName : joinName = join := Workflow.name_of_find? hAtJoin
    simp [workflow] at hMem
    rw [← hName, hMem.1]
  subst hOnly
  -- The nodes on both sides are the join and the end, and neither is an action.
  have hBoth : ∀ other ∈ ["a", "b", "j", "e"], other ∈ [Node.startName, "x", "f", "j", "e"] →
      other = "j" ∨ other = "e" := by
    decide
  rcases hBoth name (mem_of_inside hInside) (mem_of_outside hOutside) with rfl | rfl
  · cases hFind
  · cases hFind

end EntryFromOutside

/-- The join is entered from outside on the error of the first action, and refused whichever outcome
comes first. -/
theorem outside_joins_refused_entry :
    (Workflow.read EntryFromOutside.source).result = .ok EntryFromOutside.workflow ∧
    EntryFromOutside.workflow.Separated ∧ EntryFromOutside.workflow.EnteredOutside "j" ∧
    (∃ e, (TaskGraph.ofWorkflow EntryFromOutside.workflow {}).result = .error e) ∧
    RefusesJoin (EntryFromOutside.workflow.exchangeOutcomes (· == "x")) {} := by
  obtain ⟨hOwn, hOrders⟩ := outside_joins_refused {} EntryFromOutside.read_source
  have hEntered := EntryFromOutside.enteredOutside
  refine ⟨EntryFromOutside.read_source, EntryFromOutside.separated, hEntered, ?_, ?_⟩
  · have hFails := (hOrders fun _ => false).2.1
      ⟨"j", EntryFromOutside.separated.enteredClearly hEntered⟩
    rw [hOwn] at hFails
    exact hFails
  · refine ((hOrders (· == "x")).2.2 EntryFromOutside.separated ?_).mpr ⟨"j", hEntered⟩
    intro e hGraph
    have hSame := EntryFromOutside.ofWorkflow_exchanged.symm.trans hGraph
    exact ⟨"j", (Except.error.inj hSame).symm⟩

namespace ActionOnBothSides

/-- The units of a document whose first action leads to a fork, and on error into one of the paths
of the fork. -/
def units : List Char :=
  ["<w name='w'>",
    "<start to='x'/>",
    "<action name='x'><y/><ok to='f'/><error to='a'/></action>",
    "<fork name='f'><path start='a'/><path start='b'/></fork>",
    "<action name='a'><y/><ok to='j'/><error to='e'/></action>",
    "<action name='b'><y/><ok to='j'/><error to='e'/></action>",
    "<join name='j' to='e'/>",
    "<end name='e'/>",
    "</w>"].flatMap String.toList

/-- The document with these units. -/
def source : String :=
  String.ofList units

/-- The workflow of the document. -/
def workflow : Workflow where
  name := "w"
  nodes :=
    [.start "x", .action { name := "x", actionType := "y", ok := "f", error := "a" },
      .fork ⟨"f", ["a", "b"], none⟩,
      .action { name := "a", actionType := "y", ok := "j", error := "e" },
      .action { name := "b", actionType := "y", ok := "j", error := "e" }, .join "j" "e",
      .finish "e"]
  closingJoins := [("f", "j")]
  defaults := .empty

theorem read_source : (Workflow.read source).result = .ok workflow :=
  Workflow.read_ofList (by decide +kernel)

/-- The tasks of the actions; the one inside the fork knows both ways to it. -/
def graph : TaskGraph where
  workflow := "w"
  tasks :=
    [{ id := "x", source := "x", body := .action "y" {} },
      { id := "a", source := "a", body := .action "y" {},
        dependencies := [⟨some "x", .success, [], none⟩, ⟨some "x", .failure, [], none⟩] },
      { id := "b", source := "b", body := .action "y" {},
        dependencies := [⟨some "x", .success, [], none⟩] }]
  decisions := []

theorem enteredOutside : workflow.EnteredOutside "j" := by
  have hStep : ∀ pair ∈ [(Node.startName, "x"), ("x", "a"), ("a", "j")],
      workflow.Avoids "j" pair.1 pair.2 := by
    unfold Workflow.Avoids Workflow.Leads Workflow.Opens
    decide
  have hFirst := hStep (Node.startName, "x") (by decide)
  have hError := hStep ("x", "a") (by decide)
  have hOk := hStep ("a", "j") (by decide)
  exact ⟨by decide, .tail (.tail (.single hFirst) hError) hOk⟩

end ActionOnBothSides

/-- A join is entered from outside, through an action that also lies behind its fork.  Tasks are
made when the way through the fork comes first, and the join is refused when it comes last. -/
theorem refusal_depends_on_order :
    (Workflow.read ActionOnBothSides.source).result = .ok ActionOnBothSides.workflow ∧
    ActionOnBothSides.workflow.EnteredOutside "j" ∧
    (TaskGraph.ofWorkflow ActionOnBothSides.workflow {}).result = .ok ActionOnBothSides.graph ∧
    (TaskGraph.ofWorkflow (ActionOnBothSides.workflow.exchangeOutcomes (· == "x")) {}).result =
      .error (.task "j" .outsideFork) :=
  ⟨ActionOnBothSides.read_source, ActionOnBothSides.enteredOutside, by decide +kernel,
    by decide +kernel⟩

end WorkflowDag
