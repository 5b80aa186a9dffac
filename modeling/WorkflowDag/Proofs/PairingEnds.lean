import WorkflowDag.Proofs.JoinSearch

/-!
# Pairing comes to an end

The search for the joins of a path asks for the join of each fork that it meets, and pairing this
fork searches again from its paths.  Where a cycle leads back, forks are met on their own paths, and
nothing in the graph gets smaller from one call to the next.

`Pairing.body` says what each of these calls does, with no bound on how often: it answers, or it
asks another call and goes on with the answer.  `Pairing.Ends` says that this comes to an answer.

Two measures make it end.  A fork that is being paired is not paired again, so calls are nested no
deeper than there are nodes; and a search takes a pending node at each step or visits a new node,
whose transitions are more than the nodes it adds.  The bounds that `pairFork` and `joinsMet` carry
are these measures, so they are never met and the answer is the one that pairing gives
(`joinsOfForks_ends`).

Main statement: `pairing_ends`.
-/

namespace WorkflowDag
namespace Workflow

namespace Pairing

/-- A call of the search for joins or of the pairing of forks, with the forks that are being paired
around it. -/
inductive Call where
  | search (resolving pending visited found : List String) (pairs : Pairs)
  | paths (resolving : List String) (fork : String) (join : Option String) (pairs : Pairs)
      (rest : List String)
  | fork (resolving : List String) (pairs : Pairs) (f : Fork)
  | forks (pairs : Pairs) (listed : List Node)

/-- The joins that a call has found, at most one for a fork, and the pairs known then. -/
abbrev Answer := Except Error (List String × Pairs)

/-- What a call does: it answers, or asks another call and goes on with the answer. -/
inductive Move where
  | answer (a : Answer)
  | ask (call : Call) (next : Answer → Move)

/-- Leaves the answer to another call. -/
def Move.leave (call : Call) : Move :=
  .ask call .answer

/-- Goes on with what another call has found, and fails if it does. -/
def Move.after (call : Call) (next : List String → Pairs → Move) : Move :=
  .ask call fun a =>
    match a with
    | .ok found => next found.1 found.2
    | .error e => .answer (.error e)

/-- What each call does. -/
def body (nodes : List Node) : Call → Move
  | .search _ [] _ found pairs => .answer (.ok (found, pairs))
  | .search resolving (name :: pending) visited found pairs =>
    if name ∈ visited then .leave (.search resolving pending visited found pairs)
    else
      match find? nodes name with
      | none => .leave (.search resolving pending (name :: visited) found pairs)
      | some (.join _ _) =>
        .leave (.search resolving pending (name :: visited) (found ++ [name]) pairs)
      | some (.fork f) =>
        .after (.fork resolving pairs f) fun joins pairs' =>
          let next := (joins.head?.bind (afterJoin? nodes)).toList
          .leave (.search resolving (next ++ pending) (name :: visited) found pairs')
      | some node =>
        .leave (.search resolving ((successTargets node).reverse ++ pending) (name :: visited) found
          pairs)
  | .paths _ _ join pairs [] => .answer (.ok (join.toList, pairs))
  | .paths resolving fork join pairs (path :: rest) =>
    if isJoin nodes path then .answer (.error (.malformedNode fork (.pathStartsAtJoin path)))
    else
      .after (.search resolving [path] [] [] pairs) fun joins pairs' =>
        match joins, join with
        | [], _ => .answer (.error (.malformedNode fork (.pathNeverJoins path)))
        | [found], none => .leave (.paths resolving fork (some found) pairs' rest)
        | [found], some other =>
          if found = other then .leave (.paths resolving fork (some found) pairs' rest)
          else .answer (.error (.malformedNode fork (.pathsDiffer other found)))
        | _ :: _ :: _, _ => .answer (.error (.malformedNode fork (.pathReachesSeveral path)))
  | .fork resolving pairs f =>
    match closing? pairs f.name with
    | some join => .answer (.ok ([join], pairs))
    | none =>
      if f.name ∈ resolving then .answer (.ok ([], pairs))
      else
        .after (.paths (f.name :: resolving) f.name none pairs f.paths) fun joins pairs' =>
          match checkDeclared nodes f joins.head? with
          | .ok () => .answer (.ok (joins, pairs' ++ joins.map fun join => (f.name, join)))
          | .error e => .answer (.error e)
  | .forks pairs [] => .answer (.ok ([], pairs))
  | .forks pairs (.fork f :: rest) =>
    .after (.fork [] pairs f) fun _ pairs' => .leave (.forks pairs' rest)
  | .forks pairs (_ :: rest) => .leave (.forks pairs rest)

/-- A move comes to an answer when everything that it asks does. -/
inductive Runs (nodes : List Node) : Move → Answer → Prop
  | answer (a : Answer) : Runs nodes (.answer a) a
  | ask {call : Call} {next : Answer → Move} {a b : Answer} (hCall : Runs nodes (body nodes call) a)
      (hNext : Runs nodes (next a) b) : Runs nodes (.ask call next) b

/-- The call comes to the answer. -/
def Ends (nodes : List Node) (call : Call) (a : Answer) : Prop :=
  Runs nodes (body nodes call) a

section Moves

variable {nodes : List Node} {call : Call} {a : Answer}

/-- A move comes to one answer only. -/
theorem Runs.unique {move : Move} (hFirst : Runs nodes move a) :
    ∀ {b}, Runs nodes move b → b = a := by
  induction hFirst with
  | answer a =>
      intro b hSecond
      cases hSecond
      rfl
  | ask _ _ ihCall ihNext =>
      intro b hSecond
      cases hSecond with
      | ask hCall hNext =>
          obtain rfl := ihCall hCall
          exact ihNext hNext

theorem Runs.leave (hCall : Ends nodes call a) : Runs nodes (.leave call) a :=
  .ask hCall (.answer a)

theorem Runs.found {next : List String → Pairs → Move} {joins : List String} {pairs : Pairs}
    (hCall : Ends nodes call (.ok (joins, pairs))) (hNext : Runs nodes (next joins pairs) a) :
    Runs nodes (.after call next) a :=
  .ask hCall hNext

theorem Runs.fails {next : List String → Pairs → Move} {e : Error}
    (hCall : Ends nodes call (.error e)) : Runs nodes (.after call next) (.error e) :=
  .ask hCall (.answer _)

end Moves

/-- The answer that says what a pairer has found. -/
def answerOf (result : Except Error (Option String × Pairs)) : Answer :=
  result.map fun found => (found.1.toList, found.2)

end Pairing

open Pairing

/-- The pairer gives the answers of calls that come to an end. -/
def Pairer.Answers (nodes : List Node) (resolving : List String) (pairer : Pairer) : Prop :=
  ∀ pairs f, find? nodes f.name = some (.fork f) → Nested nodes pairs →
    Ends nodes (.fork resolving pairs f) (answerOf (pairer pairs f))

section Searching

variable {nodes : List Node} {resolving : List String} {pairer : Pairer}

/-- From a node that is no fork the search goes on with no more nodes than it has transitions. -/
theorem body_search {name : String} {pending visited found : List String} {pairs : Pairs}
    (hNew : name ∉ visited) (hFork : ∀ f, find? nodes name ≠ some (.fork f)) :
    ∃ nexts met, expand nodes pairer pairs name = .ok (nexts, met, pairs) ∧
      nexts.length ≤ (targets nodes name).length ∧
      body nodes (.search resolving (name :: pending) visited found pairs) =
        .leave (.search resolving (nexts ++ pending) (name :: visited) (found ++ met) pairs) := by
  unfold expand
  rw [body, if_neg hNew]
  cases hFind : find? nodes name with
  | none => exact ⟨[], [], rfl, Nat.zero_le _, by rw [List.append_nil]; rfl⟩
  | some node =>
      cases node with
      | fork f => exact absurd hFind (hFork f)
      | join joinName target => exact ⟨[], [name], rfl, Nat.zero_le _, rfl⟩
      | start target | action a | decision d | kill killName message | finish endName =>
          refine ⟨_, [], rfl, ?_, by rw [List.append_nil]⟩
          rw [List.length_reverse]
          exact length_successTargets_le hFind

/-- A fork whose join has been put down has a transition, so the one node behind the join is not
more than the fork takes with it. -/
theorem length_afterJoin?_le {f : Fork} {join : Option String} {pairs : Pairs}
    (hNested : Nested nodes pairs) (hFound : ∀ found, join = some found → (f.name, found) ∈ pairs) :
    (join.bind (afterJoin? nodes)).toList.length ≤ (targets nodes f.name).length := by
  cases join with
  | none => exact Nat.zero_le _
  | some found =>
      obtain ⟨next, hLeads, -⟩ :=
        Relation.TransGen.head'_iff.mp (hNested.leads _ (hFound found rfl))
      exact Nat.le_trans Option.length_toList_le (List.length_pos_of_mem hLeads)

/-- A search that may take as many steps as there are pending nodes and transitions left gives the
answer of the search without a bound. -/
theorem joinsMet_ends (hAnswers : pairer.Answers nodes resolving)
    (hNests : pairer.Nests nodes resolving) (steps : Nat) :
    ∀ (pending visited found : List String) (pairs : Pairs), Nested nodes pairs →
      pending.length + edgesLeft nodes visited ≤ steps →
      Ends nodes (.search resolving pending visited found pairs)
        (joinsMet nodes pairer steps pending visited found pairs) := by
  induction steps with
  | zero =>
      intro pending visited found pairs _ hSteps
      obtain rfl : pending = [] := List.length_eq_zero_iff.mp (by omega)
      exact .answer _
  | succ steps ih =>
      intro pending visited found pairs hNested hSteps
      cases pending with
      | nil => exact .answer _
      | cons name pending =>
          rw [List.length_cons] at hSteps
          unfold Ends
          by_cases hVisited : name ∈ visited
          · rw [body, if_pos hVisited, joinsMet, if_pos (List.contains_iff_mem.mpr hVisited)]
            exact .leave (ih pending visited found pairs hNested (by omega))
          have hLeft : edgesLeft nodes (name :: visited) + (targets nodes name).length ≤
              edgesLeft nodes visited := edgesLeft_visit hVisited
          rw [joinsMet_cons hVisited]
          by_cases hFork : ∃ f, find? nodes name = some (.fork f)
          · -- The pairer answers for the nested fork; one node at most is added behind its join.
            obtain ⟨f, hFind⟩ := hFork
            obtain rfl : f.name = name := name_of_find? hFind
            have hAsk := hAnswers pairs f hFind hNested
            have hExpand : expand nodes pairer pairs f.name = (pairer pairs f).map fun result =>
                ((result.1.bind (afterJoin? nodes)).toList, [], result.2) := by
              unfold expand
              rw [hFind]
            rw [body, if_neg hVisited, hFind, hExpand]
            cases hPair : pairer pairs f with
            | error e =>
                rw [hPair] at hAsk
                exact .fails hAsk
            | ok result =>
                obtain ⟨join, pairs'⟩ := result
                rw [hPair] at hAsk
                obtain ⟨hExtends, hFound⟩ := hNests pairs f join pairs' hFind hNested hPair
                have hFew := length_afterJoin?_le hExtends.nested hFound
                refine .found hAsk (.leave ?_)
                show Ends nodes
                  (.search resolving ((join.toList.head?.bind (afterJoin? nodes)).toList ++ pending)
                    (f.name :: visited) found pairs')
                  (joinsMet nodes pairer steps ((join.bind (afterJoin? nodes)).toList ++ pending)
                    (f.name :: visited) (found ++ []) pairs')
                rw [Option.head?_toList, List.append_nil]
                refine ih _ _ _ _ hExtends.nested ?_
                rw [List.length_append]
                omega
          · obtain ⟨nexts, met, hExpand, hFew, hBody⟩ := body_search hVisited (not_exists.mp hFork)
            rw [hBody, hExpand, ok_bind]
            refine .leave (ih _ _ _ _ hNested ?_)
            rw [List.length_append]
            omega

/-- The paths of a fork are followed to the answer of the calls without a bound. -/
theorem closePaths_ends (hAnswers : pairer.Answers nodes resolving)
    (hNests : pairer.Nests nodes resolving) (fork : String) (rest : List String) :
    ∀ (join : Option String) (pairs : Pairs), Nested nodes pairs →
      Ends nodes (.paths resolving fork join pairs rest)
        (answerOf (closePaths nodes pairer fork join pairs rest)) := by
  induction rest with
  | nil => exact fun join pairs _ => .answer _
  | cons path rest ih =>
      intro join pairs hNested
      unfold Ends
      rw [body, closePaths]
      by_cases hStarts : isJoin nodes path = true
      · rw [if_pos hStarts, if_pos hStarts]
        exact .answer _
      rw [if_neg hStarts, if_neg hStarts]
      have hSteps : [path].length + edgesLeft nodes [] ≤ edgeCount nodes + 1 := by
        rw [edgesLeft_nil, List.length_singleton]
        omega
      have hSearch := joinsMet_ends hAnswers hNests _ _ _ [] pairs hNested hSteps
      cases hMet : joinsMet nodes pairer (edgeCount nodes + 1) [path] [] [] pairs with
      | error e =>
          rw [hMet] at hSearch
          exact .fails hSearch
      | ok result =>
          obtain ⟨met, pairs1⟩ := result
          rw [hMet] at hSearch
          obtain ⟨hExtends, -⟩ := joinsMet_nested hNests path _ [path] [] [] pairs met pairs1
            (fun _ hName => List.mem_singleton.mp hName ▸ .refl)
            (fun _ hName => absurd hName List.not_mem_nil)
            (fun _ hName => absurd hName List.not_mem_nil) hNested hMet
          refine .found hSearch ?_
          rcases met with _ | ⟨found, _ | ⟨second, more⟩⟩
          · exact .answer _
          · cases join with
            | none => exact .leave (ih (some found) pairs1 hExtends.nested)
            | some other =>
                simp only [ok_bind]
                by_cases hSame : found = other
                · rw [if_pos hSame, if_pos hSame, ← hSame]
                  exact .leave (ih (some found) pairs1 hExtends.nested)
                · rw [if_neg hSame, if_neg hSame]
                  exact .answer _
          · exact .answer _

end Searching

section Forks

variable {nodes : List Node}

/-- With a level for each fork that may still be paired, pairing gives the answers of the calls
without a bound. -/
theorem pairFork_ends (levels : Nat) :
    ∀ resolving : List String, resolving.Nodup →
      (∀ name ∈ resolving, ∃ node, find? nodes name = some node) →
      nodes.length < levels + resolving.length →
      (pairFork nodes levels resolving).Answers nodes resolving := by
  induction levels with
  | zero =>
      -- No more forks can be in the middle of being paired than there are nodes.
      intro resolving hDistinct hNodes hLevels
      have hFew := length_le_of_find? hDistinct hNodes
      omega
  | succ levels ih =>
      intro resolving hDistinct hNodes hLevels pairs f hFind hNested
      unfold Ends
      rw [body, pairFork]
      cases hKnown : closing? pairs f.name with
      | some join => exact .answer _
      | none =>
          by_cases hResolving : f.name ∈ resolving
          · -- A cycle has led back to a fork that is being paired.
            rw [if_pos hResolving]
            simp only [if_pos (List.contains_iff_mem.mpr hResolving)]
            exact .answer _
          · rw [if_neg hResolving]
            simp only [if_neg fun hMem => hResolving (List.contains_iff_mem.mp hMem)]
            have hInner := ih (f.name :: resolving) (List.nodup_cons.mpr ⟨hResolving, hDistinct⟩)
              (List.forall_mem_cons.mpr ⟨⟨_, hFind⟩, hNodes⟩) (by rw [List.length_cons]; omega)
            have hPaths := closePaths_ends hInner
              (pairFork_nests nodes levels (f.name :: resolving)) f.name f.paths none pairs hNested
            cases hClose : closePaths nodes (pairFork nodes levels (f.name :: resolving)) f.name
                none pairs f.paths with
            | error e =>
                rw [hClose] at hPaths
                exact .fails hPaths
            | ok result =>
                obtain ⟨join, pairs'⟩ := result
                rw [hClose] at hPaths
                refine .found hPaths ?_
                rw [Option.head?_toList]
                simp only [ok_bind]
                cases checkDeclared nodes f join with
                | error e => exact .answer _
                | ok =>
                    cases join with
                    | none =>
                        rw [Option.toList_none, List.map_nil, List.append_nil]
                        exact .answer _
                    | some found => exact .answer _

/-- Pairing the forks of a list gives the answer of the calls without a bound. -/
theorem joinsOfForks_ends (hDistinct : (nodes.map Node.name).Nodup) (listed : List Node) :
    ∀ pairs, listed ⊆ nodes → Nested nodes pairs →
      Ends nodes (.forks pairs listed)
        ((joinsOfForks nodes pairs listed).map fun pairs' => ([], pairs')) := by
  induction listed with
  | nil => exact fun pairs _ _ => .answer _
  | cons node rest ih =>
      intro pairs hListed hNested
      have hRest : rest ⊆ nodes := fun other hOther => hListed (List.mem_cons_of_mem node hOther)
      cases node with
      | fork f =>
          have hFind : find? nodes f.name = some (.fork f) :=
            find?_name hDistinct (hListed List.mem_cons_self)
          have hFork := pairFork_ends (nodes.length + 1) [] List.nodup_nil
            (fun _ hName => absurd hName List.not_mem_nil) (Nat.lt_succ_self _) pairs f hFind
            hNested
          unfold Ends
          rw [body, joinsOfForks]
          cases hPair : pairFork nodes (nodes.length + 1) [] pairs f with
          | error e =>
              rw [hPair] at hFork
              exact .fails hFork
          | ok result =>
              obtain ⟨join, pairs'⟩ := result
              rw [hPair] at hFork
              obtain ⟨hExtends, -⟩ :=
                pairFork_nests nodes _ [] pairs f join pairs' hFind hNested hPair
              exact .found hFork (.leave (ih pairs' hRest hExtends.nested))
      | start target | join name target | action a | decision d | kill name message | finish name =>
          exact .leave (ih pairs hRest hNested)

end Forks

/-- Pairing the forks of a workflow comes to an end, whether or not the start reaches them and
whatever cycles they lie on.  The calls come to one answer, a failure or pairs, and this is what
`joinsOfForks` gives.  The pairs hold each fork once and map it to a join. -/
theorem pairing_ends {nodes : List Node} (hDistinct : (nodes.map Node.name).Nodup) :
    ∃ a, Ends nodes (.forks [] nodes) a ∧ (∀ b, Ends nodes (.forks [] nodes) b → b = a) ∧
      joinsOfForks nodes [] nodes = a.map Prod.snd ∧
      ∀ joins pairs, a = .ok (joins, pairs) → (pairs.map Prod.fst).Nodup ∧
        ∀ pair ∈ pairs, (∃ f, find? nodes pair.1 = some (.fork f)) ∧
          ∃ name target, find? nodes pair.2 = some (.join name target) := by
  have hEnds := joinsOfForks_ends hDistinct nodes [] (List.Subset.refl _) .nil
  refine ⟨_, hEnds, fun b hOther => Runs.unique hEnds hOther, ?_, ?_⟩
  · cases joinsOfForks nodes [] nodes with
    | ok pairs => rfl
    | error e => rfl
  · intro joins pairs hPairs
    obtain ⟨pairs', hJoins, hSame⟩ := map_eq_ok_iff.mp hPairs
    obtain ⟨-, rfl⟩ := Prod.mk.inj hSame
    obtain ⟨hNested, -⟩ :=
      joinsOfForks_nested hDistinct nodes [] pairs' (List.Subset.refl _) .nil hJoins
    refine ⟨hNested.keys, fun pair hPair => ⟨?_, isJoin_iff.mp (hNested.joins pair hPair)⟩⟩
    obtain ⟨f, hFork, -⟩ := hNested.starts pair hPair
    exact ⟨f, hFork⟩

namespace ForkCycle

def action (name ok : String) : Node :=
  .action { name, actionType := "x", ok, error := "k" }

/-- Two forks on a cycle that the start does not reach: the second is nested in the first, and a
path of the second leads back to the first. -/
def nodes : List Node :=
  [.start "e", .fork ⟨"f", ["g", "c"], none⟩, .fork ⟨"g", ["a", "b"], none⟩, action "a" "i",
    action "b" "i", .join "i" "d", .decision ⟨"d", [⟨"x", "j"⟩], "f"⟩, action "c" "j",
    .join "j" "g", .finish "e", .kill "k" ""]

theorem leads_back : Relation.TransGen (Leads nodes) "f" "f" := by
  have hEdges : Leads nodes "f" "g" ∧ Leads nodes "g" "a" ∧ Leads nodes "a" "i" ∧
      Leads nodes "i" "d" ∧ Leads nodes "d" "f" := by
    unfold Leads
    decide
  obtain ⟨hFirst, hSecond, hThird, hFourth, hLast⟩ := hEdges
  exact ((((Relation.TransGen.single hFirst).tail hSecond).tail hThird).tail hFourth).tail hLast

end ForkCycle

theorem pairing_ends_cycle :
    checkLinks ForkCycle.nodes = .ok () ∧
      Relation.TransGen (Leads ForkCycle.nodes) "f" "f" ∧
      ∃ a, Ends ForkCycle.nodes (.forks [] ForkCycle.nodes) a ∧
        a.map Prod.snd = .ok [("g", "i"), ("f", "j")] := by
  have hPairs : joinsOfForks ForkCycle.nodes [] ForkCycle.nodes = .ok [("g", "i"), ("f", "j")] := by
    decide +kernel
  obtain ⟨a, hEnds, -, hSame, -⟩ := @pairing_ends ForkCycle.nodes (by decide)
  exact ⟨by decide +kernel, ForkCycle.leads_back, a, hEnds, hSame.symm.trans hPairs⟩

end Workflow
end WorkflowDag
