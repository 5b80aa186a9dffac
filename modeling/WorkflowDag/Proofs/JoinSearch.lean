import Mathlib.Algebra.GroupWithZero.Nat
import WorkflowDag.Proofs.ForkClosing

/-!
# The joins that the paths of a fork meet

Which join closes a fork is decided by the joins that are met from its paths, and these depend on
the joins that close the forks on the way.  `Closes` is the declarative side: a function `closing`
from forks to joins closes a fork when the joins met from each of its paths, passing nested forks by
`closing`, are exactly the one join.

The search for the joins of a path expands pending nodes and asks a pairer for each nested fork.
`Searching` is its invariant.  For a pairer that is right about the forks behind the one being
resolved, the search finds exactly the joins that are met (`joinsMet_exact`), and it succeeds when
the pairer does (`joinsMet_total`).

Forks that cannot be reached may lie on cycles, and nothing is said about the joins found for them.
They are paired along with the others and leave what is known about those as it is.
-/

namespace WorkflowDag
namespace Workflow

/-- One step of the way to the joins of a fork, where `closing` names the join of each fork: over a
nested fork to what stands behind its join, and from any other node but a join along each transition
that is no failure. -/
inductive Follows (nodes : List Node) (closing : String → String) : String → String → Prop
  | fork {name joinName behind : String} {f : Fork} (hFind : find? nodes name = some (.fork f))
      (hJoin : find? nodes (closing name) = some (.join joinName behind)) :
      Follows nodes closing name behind
  | other {name target : String} {node : Node} (hFind : find? nodes name = some node)
      (hJoin : node.kind ≠ .join) (hFork : node.kind ≠ .fork)
      (hTarget : target ∈ successTargets node) : Follows nodes closing name target

/-- The join is met from the node.  A join meets itself only, for no step leads out of it. -/
def Meets (nodes : List Node) (closing : String → String) (name join : String) : Prop :=
  Relation.ReflTransGen (Follows nodes closing) name join ∧ isJoin nodes join = true

/-- The fork is closed by its join: no path starts at a join, each meets this join and no other, and
the fork declares no other. -/
structure Closes (nodes : List Node) (closing : String → String) (f : Fork) : Prop where
  join : isJoin nodes (closing f.name) = true
  paths : ∀ path ∈ f.paths, isJoin nodes path = false
  meets : ∀ path ∈ f.paths, ∀ join, Meets nodes closing path join ↔ join = closing f.name
  declared : ∀ join, f.declaredJoin = some join → join = closing f.name

/-- The pairs are those of the function. -/
def Agrees (closing : String → String) (pairs : Pairs) : Prop :=
  ∀ pair ∈ pairs, closing pair.1 = pair.2

/-- The pairs have been put down one after the other, and each fork that can be reached is closed by
its join in every function that agrees. -/
structure Known (nodes : List Node) (pairs : Pairs) : Prop where
  nested : Nested nodes pairs
  closes : ∀ closing, Agrees closing pairs → ∀ f, find? nodes f.name = some (.fork f) →
    Reachable nodes f.name → f.name ∈ pairs.map Prod.fst → Closes nodes closing f

/-- Pairs have been added, all of them of forks behind the given one. -/
structure Grown (nodes : List Node) (fork : String) (pairs pairs' : Pairs) : Prop where
  subset : pairs ⊆ pairs'
  behind : ∀ pair ∈ pairs', pair ∈ pairs ∨ Relation.TransGen (Leads nodes) fork pair.1

/-- What is asked of a pairer for the forks behind the given one: what it adds to the pairs is
known, the joins that it names among it, and it names those of all forks that can be reached. -/
def Pairer.Exact (nodes : List Node) (fork : String) (pairer : Pairer) : Prop :=
  ∀ f pairs join pairs', find? nodes f.name = some (.fork f) →
    Relation.TransGen (Leads nodes) fork f.name → Known nodes pairs →
    pairer pairs f = .ok (join, pairs') →
    Known nodes pairs' ∧ Grown nodes fork pairs pairs' ∧
      (∀ found, join = some found → (f.name, found) ∈ pairs') ∧
      (Reachable nodes f.name → join.isSome = true)

/-- The pairer succeeds on the forks behind the given one, in agreement with the function. -/
def Pairer.Total (nodes : List Node) (fork : String) (closing : String → String)
    (pairer : Pairer) : Prop :=
  ∀ f pairs, find? nodes f.name = some (.fork f) → Relation.TransGen (Leads nodes) fork f.name →
    Known nodes pairs → Agrees closing pairs →
    ∃ pairs', pairer pairs f = .ok (some (closing f.name), pairs') ∧ Agrees closing pairs'

section Pairs

variable {nodes : List Node} {closing : String → String} {fork : String}
  {pairs pairs' pairs'' : Pairs}

theorem Agrees.of_subset (hAgrees : Agrees closing pairs') (hSubset : pairs ⊆ pairs') :
    Agrees closing pairs :=
  fun pair hPair => hAgrees pair (hSubset hPair)

theorem Grown.refl (nodes : List Node) (fork : String) (pairs : Pairs) :
    Grown nodes fork pairs pairs :=
  ⟨List.Subset.refl _, fun _ hPair => Or.inl hPair⟩

theorem Grown.trans (hFirst : Grown nodes fork pairs pairs')
    (hSecond : Grown nodes fork pairs' pairs'') : Grown nodes fork pairs pairs'' where
  subset := List.Subset.trans hFirst.subset hSecond.subset
  behind := by
    intro pair hPair
    rcases hSecond.behind pair hPair with hEarlier | hBehind
    · exact hFirst.behind pair hEarlier
    · exact Or.inr hBehind

end Pairs

section Kinds

variable {nodes : List Node} {closing : String → String} {name : String}

/-- Behind a join stands its one target. -/
theorem afterJoin?_eq_some_iff (hJoin : isJoin nodes name = true) {behind : String} :
    afterJoin? nodes name = some behind ↔
      ∃ joinName, find? nodes name = some (.join joinName behind) := by
  obtain ⟨joinName, target, hFind⟩ := isJoin_iff.mp hJoin
  have hAfter : afterJoin? nodes name = some target := by
    unfold afterJoin? targets
    rw [hFind]
    rfl
  rw [hAfter, hFind]
  simp [eq_comm]

theorem length_successTargets_le {node : Node} (hFind : find? nodes name = some node) :
    (successTargets node).length ≤ (targets nodes name).length := by
  unfold targets successTargets
  rw [hFind, List.length_map, List.length_map]
  exact List.length_filter_le _ _

/-- No step leads out of a join. -/
theorem Follows.isJoin_eq_false {next : String} (hFollows : Follows nodes closing name next) :
    isJoin nodes name = false := by
  unfold isJoin
  cases hFollows with
  | fork hFind hJoin => rw [hFind]
  | other hFind hJoin hFork hTarget =>
      rw [hFind]
      split
      next hSame =>
        cases hSame
        exact absurd rfl hJoin
      next => rfl

end Kinds

section Expansion

variable {nodes : List Node} {pairer : Pairer} {fork name : String} {pairs pairs' : Pairs}
  {nexts met : List String}

/-- What an expansion gives, for a pairer that is right about the forks behind the given one. -/
structure Expanded (nodes : List Node) (fork name : String) (pairs pairs' : Pairs)
    (nexts met : List String) : Prop where
  known : Known nodes pairs'
  grown : Grown nodes fork pairs pairs'
  behind : ∀ next ∈ nexts, Relation.TransGen (Leads nodes) fork next
  few : nexts.length ≤ (targets nodes name).length
  met : met = if isJoin nodes name = true then [name] else []
  nexts : Reachable nodes name → ∀ closing, Agrees closing pairs' →
    ∀ next, next ∈ nexts ↔ Follows nodes closing name next

/-- Over a nested fork the search goes on behind the join that the pairer has named. -/
theorem expanded_fork (hPairer : pairer.Exact nodes fork)
    (hPaths : ∀ f, Node.fork f ∈ nodes → f.paths ≠ []) {f : Fork}
    (hFind : find? nodes f.name = some (.fork f))
    (hBehind : Relation.TransGen (Leads nodes) fork f.name) (hKnown : Known nodes pairs)
    {join : Option String} (hPair : pairer pairs f = .ok (join, pairs')) :
    Expanded nodes fork f.name pairs pairs' (join.bind (afterJoin? nodes)).toList [] := by
  obtain ⟨hKnown', hGrown, hFound, hNamed⟩ :=
    hPairer f pairs join pairs' hFind hBehind hKnown hPair
  refine ⟨hKnown', hGrown, ?_, ?_, ?_, ?_⟩
  · intro next hNext
    obtain ⟨found, hJoin, hAfter⟩ := Option.bind_eq_some_iff.mp (Option.mem_toList.mp hNext)
    exact (hBehind.trans (hKnown'.nested.leads _ (hFound found hJoin))).tail
      (leads_of_afterJoin? hAfter)
  · -- A fork has a path at least, which is more than the one node behind its join.
    have hLength : (targets nodes f.name).length = f.paths.length := by
      unfold targets
      rw [hFind]
      simp [Node.transitions]
    have hSome : 0 < f.paths.length := List.length_pos_of_ne_nil (hPaths f (mem_of_find? hFind))
    have hOne := Option.length_toList_le (o := join.bind (afterJoin? nodes))
    omega
  · have hNoJoin : isJoin nodes f.name = false := by
      unfold isJoin
      rw [hFind]
    rw [hNoJoin]
    rfl
  · intro hReachable closing hAgrees next
    obtain ⟨found, rfl⟩ := Option.isSome_iff_exists.mp (hNamed hReachable)
    have hPair := hFound found rfl
    have hClosing : closing f.name = found := hAgrees _ hPair
    have hJoin : isJoin nodes found = true := hKnown'.nested.joins _ hPair
    rw [Option.bind_some, Option.mem_toList, afterJoin?_eq_some_iff hJoin]
    constructor
    · rintro ⟨joinName, hAfter⟩
      exact .fork hFind (hClosing.symm ▸ hAfter)
    · intro hFollows
      cases hFollows with
      | fork _ hAfter => exact ⟨_, hClosing ▸ hAfter⟩
      | other hFind' _ hFork _ =>
          cases hFind.symm.trans hFind'
          exact absurd rfl hFork

/-- Every expansion that succeeds gives the steps out of its node. -/
theorem expand_exact (hPairer : pairer.Exact nodes fork)
    (hPaths : ∀ f, Node.fork f ∈ nodes → f.paths ≠ [])
    (hBehind : Relation.TransGen (Leads nodes) fork name) (hKnown : Known nodes pairs)
    (hExpand : expand nodes pairer pairs name = .ok (nexts, met, pairs')) :
    Expanded nodes fork name pairs pairs' nexts met := by
  cases hFind : find? nodes name with
  | none =>
      unfold expand at hExpand
      rw [hFind] at hExpand
      cases hExpand
      refine ⟨hKnown, .refl nodes fork pairs, fun _ hNext => absurd hNext List.not_mem_nil,
        Nat.zero_le _, ?_, ?_⟩
      · simp [isJoin, hFind]
      · intro _ closing _ next
        refine ⟨fun hNext => absurd hNext List.not_mem_nil, fun hFollows => ?_⟩
        cases hFollows with
        | fork hFind' _ => cases hFind.symm.trans hFind'
        | other hFind' _ _ _ => cases hFind.symm.trans hFind'
  | some node =>
      by_cases hJoin : node.kind = .join
      · -- A join is met and the search does not go on from it.
        have hIsJoin : isJoin nodes name = true := by
          cases node <;> simp_all [Node.kind, isJoin]
        obtain ⟨joinName, target, hFind'⟩ := isJoin_iff.mp hIsJoin
        unfold expand at hExpand
        rw [hFind'] at hExpand
        cases hExpand
        refine ⟨hKnown, .refl nodes fork pairs, fun _ hNext => absurd hNext List.not_mem_nil,
          Nat.zero_le _, by rw [hIsJoin]; rfl, ?_⟩
        intro _ closing _ next
        refine ⟨fun hNext => absurd hNext List.not_mem_nil, fun hFollows => ?_⟩
        rw [hFollows.isJoin_eq_false] at hIsJoin
        cases hIsJoin
      by_cases hFork : node.kind = .fork
      · obtain ⟨f, rfl⟩ : ∃ f, node = .fork f := by
          cases node <;> simp_all [Node.kind]
        have hName : f.name = name := name_of_find? hFind
        subst hName
        unfold expand at hExpand
        rw [hFind] at hExpand
        obtain ⟨⟨join, pairs1⟩, hPair, hSame⟩ := map_eq_ok_iff.mp hExpand
        cases hSame
        exact expanded_fork hPairer hPaths hFind hBehind hKnown hPair
      · -- Any other node is followed along the transitions that are no failures.
        rw [expand_of_other hFind hJoin hFork] at hExpand
        cases hExpand
        refine ⟨hKnown, .refl nodes fork pairs, ?_, ?_, ?_, ?_⟩
        · intro next hNext
          exact hBehind.tail (leads_of_mem_successTargets hFind (List.mem_reverse.mp hNext))
        · rw [List.length_reverse]
          exact length_successTargets_le hFind
        · cases node <;> simp_all [Node.kind, isJoin]
        · intro _ closing _ next
          rw [List.mem_reverse]
          constructor
          · exact fun hNext => .other hFind hJoin hFork hNext
          · intro hFollows
            cases hFollows with
            | fork hFind' _ =>
                cases hFind.symm.trans hFind'
                exact absurd rfl hFork
            | other hFind' _ _ hTarget =>
                cases hFind.symm.trans hFind'
                exact hTarget

/-- An expansion succeeds when the pairer does. -/
theorem expand_total {closing : String → String} (hTotal : pairer.Total nodes fork closing)
    (hBehind : Relation.TransGen (Leads nodes) fork name) (hKnown : Known nodes pairs)
    (hAgrees : Agrees closing pairs) :
    ∃ nexts met pairs', expand nodes pairer pairs name = .ok (nexts, met, pairs') ∧
      Agrees closing pairs' := by
  unfold expand
  split
  next => exact ⟨_, _, _, rfl, hAgrees⟩
  next => exact ⟨_, _, _, rfl, hAgrees⟩
  next f hFind =>
    have hName : f.name = name := name_of_find? hFind
    subst hName
    obtain ⟨pairs', hPair, hAgrees'⟩ := hTotal f pairs hFind hBehind hKnown hAgrees
    rw [hPair]
    exact ⟨_, _, _, rfl, hAgrees'⟩
  next => exact ⟨_, _, _, rfl, hAgrees⟩

end Expansion

/-- Number of transitions out of nodes that have not been visited. -/
def edgesLeft (nodes : List Node) (visited : List String) : Nat :=
  ((nodes.filter fun node => !visited.contains node.name).map
    fun node => node.transitions.length).sum

theorem edgesLeft_nil (nodes : List Node) : edgesLeft nodes [] = edgeCount nodes := by
  unfold edgesLeft edgeCount
  rw [List.sum_eq_foldl]
  simp

theorem edgesLeft_cons_nodes (first : Node) (rest : List Node) (visited : List String) :
    edgesLeft (first :: rest) visited =
      (if first.name ∈ visited then 0 else first.transitions.length) + edgesLeft rest visited := by
  unfold edgesLeft
  by_cases hVisited : first.name ∈ visited
  · simp [hVisited]
  · simp [hVisited]

theorem edgesLeft_cons_le (nodes : List Node) (visited : List String) (name : String) :
    edgesLeft nodes (name :: visited) ≤ edgesLeft nodes visited := by
  induction nodes with
  | nil => exact Nat.le_refl _
  | cons first rest ih =>
      rw [edgesLeft_cons_nodes, edgesLeft_cons_nodes]
      by_cases hVisited : first.name ∈ visited
      · rw [if_pos (List.mem_cons_of_mem name hVisited), if_pos hVisited]
        omega
      · rw [if_neg hVisited]
        split <;> omega

/-- A node that is visited takes its transitions with it. -/
theorem edgesLeft_visit {nodes : List Node} {visited : List String} {name : String}
    (hNew : name ∉ visited) :
    edgesLeft nodes (name :: visited) + (targets nodes name).length ≤ edgesLeft nodes visited := by
  induction nodes with
  | nil => exact Nat.le_refl _
  | cons first rest ih =>
      rw [edgesLeft_cons_nodes, edgesLeft_cons_nodes]
      by_cases hSame : first.name = name
      · have hTargets : (targets (first :: rest) name).length = first.transitions.length := by
          simp [targets, find?, hSame]
        have hRest := edgesLeft_cons_le rest visited name
        rw [hTargets, if_pos (hSame ▸ List.mem_cons_self), if_neg (hSame ▸ hNew)]
        omega
      · have hTargets : targets (first :: rest) name = targets rest name := by
          simp [targets, find?, hSame]
        have hVisited : first.name ∈ name :: visited ↔ first.name ∈ visited := by
          simp [hSame]
        rw [hTargets, if_congr hVisited rfl rfl]
        omega

/-- Where a search that began at the source stands, for the steps of a function. -/
structure Searching (nodes : List Node) (closing : String → String) (source : String)
    (pending visited found : List String) : Prop where
  begun : source ∈ visited ∨ source ∈ pending
  reached : ∀ name, name ∈ visited ∨ name ∈ pending →
    Relation.ReflTransGen (Follows nodes closing) source name
  closed : ∀ name ∈ visited, ∀ next, Follows nodes closing name next →
    next ∈ visited ∨ next ∈ pending
  joins : ∀ name, name ∈ found ↔ name ∈ visited ∧ isJoin nodes name = true
  distinct : found.Nodup

section Searches

variable {nodes : List Node} {closing : String → String} {source name : String}
  {pending visited found nexts : List String}

theorem Searching.start (nodes : List Node) (closing : String → String) (source : String) :
    Searching nodes closing source [source] [] [] where
  begun := Or.inr (List.mem_singleton.mpr rfl)
  reached := by
    rintro name (hVisited | hPending)
    · exact absurd hVisited List.not_mem_nil
    · rw [List.mem_singleton.mp hPending]
  closed := fun _ hVisited => absurd hVisited List.not_mem_nil
  joins := by simp
  distinct := List.nodup_nil

/-- A pending node that has been visited is left out. -/
theorem Searching.skip (hSearch : Searching nodes closing source (name :: pending) visited found)
    (hVisited : name ∈ visited) : Searching nodes closing source pending visited found where
  begun := by
    rcases hSearch.begun with hBegun | hBegun
    · exact Or.inl hBegun
    · rcases List.mem_cons.mp hBegun with rfl | hLater
      · exact Or.inl hVisited
      · exact Or.inr hLater
  reached := fun other hOther =>
    hSearch.reached other (hOther.imp_right (List.mem_cons_of_mem name))
  closed := by
    intro other hOther next hFollows
    rcases hSearch.closed other hOther next hFollows with hNext | hNext
    · exact Or.inl hNext
    · rcases List.mem_cons.mp hNext with rfl | hLater
      · exact Or.inl hVisited
      · exact Or.inr hLater
  joins := hSearch.joins
  distinct := hSearch.distinct

/-- Expanding a pending node that is new. -/
theorem Searching.expand (hSearch : Searching nodes closing source (name :: pending) visited found)
    (hNew : name ∉ visited) (hNexts : ∀ next, next ∈ nexts ↔ Follows nodes closing name next) :
    Searching nodes closing source (nexts ++ pending) (name :: visited)
      (found ++ if isJoin nodes name = true then [name] else []) where
  begun := by
    rcases hSearch.begun with hBegun | hBegun
    · exact Or.inl (List.mem_cons_of_mem name hBegun)
    · rcases List.mem_cons.mp hBegun with rfl | hLater
      · exact Or.inl List.mem_cons_self
      · exact Or.inr (List.mem_append_right nexts hLater)
  reached := by
    have hName := hSearch.reached name (Or.inr List.mem_cons_self)
    rintro other (hVisited | hPending)
    · rcases List.mem_cons.mp hVisited with rfl | hEarlier
      · exact hName
      · exact hSearch.reached other (Or.inl hEarlier)
    · rcases List.mem_append.mp hPending with hNext | hLater
      · exact hName.tail ((hNexts other).mp hNext)
      · exact hSearch.reached other (Or.inr (List.mem_cons_of_mem name hLater))
  closed := by
    intro other hOther next hFollows
    rcases List.mem_cons.mp hOther with rfl | hEarlier
    · exact Or.inr (List.mem_append_left pending ((hNexts next).mpr hFollows))
    · rcases hSearch.closed other hEarlier next hFollows with hNext | hNext
      · exact Or.inl (List.mem_cons_of_mem name hNext)
      · rcases List.mem_cons.mp hNext with rfl | hLater
        · exact Or.inl List.mem_cons_self
        · exact Or.inr (List.mem_append_right nexts hLater)
  joins := by
    intro other
    rw [List.mem_append, hSearch.joins other, List.mem_cons]
    by_cases hJoin : isJoin nodes name = true
    · rw [if_pos hJoin, List.mem_singleton]
      constructor
      · rintro (⟨hVisited, hOther⟩ | rfl)
        · exact ⟨Or.inr hVisited, hOther⟩
        · exact ⟨Or.inl rfl, hJoin⟩
      · rintro ⟨rfl | hVisited, hOther⟩
        · exact Or.inr rfl
        · exact Or.inl ⟨hVisited, hOther⟩
    · rw [if_neg hJoin]
      constructor
      · rintro (⟨hVisited, hOther⟩ | hNone)
        · exact ⟨Or.inr hVisited, hOther⟩
        · exact absurd hNone List.not_mem_nil
      · rintro ⟨rfl | hVisited, hOther⟩
        · exact absurd hOther hJoin
        · exact Or.inl ⟨hVisited, hOther⟩
  distinct := by
    have hFresh : name ∉ found := fun hFound => hNew ((hSearch.joins name).mp hFound).1
    split
    · rw [← List.concat_eq_append]
      exact List.Nodup.concat hFresh hSearch.distinct
    · rw [List.append_nil]
      exact hSearch.distinct

/-- With nothing pending, what has been found is what is met from the source. -/
theorem Searching.finish (hSearch : Searching nodes closing source [] visited found) :
    (∀ join, join ∈ found ↔ Meets nodes closing source join) ∧ found.Nodup := by
  have hVisited : ∀ name, name ∈ visited ↔
      Relation.ReflTransGen (Follows nodes closing) source name := by
    intro name
    refine ⟨fun hName => hSearch.reached name (Or.inl hName), fun hReached => ?_⟩
    have hNone : ∀ other : String, other ∈ visited ∨ other ∈ [] → other ∈ visited :=
      fun other hOther => hOther.resolve_right List.not_mem_nil
    induction hReached with
    | refl => exact hNone source hSearch.begun
    | tail _ hFollows ih => exact hNone _ (hSearch.closed _ ih _ hFollows)
  refine ⟨fun join => ?_, hSearch.distinct⟩
  rw [hSearch.joins join, hVisited join]
  exact Iff.rfl

end Searches

section Search

variable {nodes : List Node} {pairer : Pairer} {fork : String}

/-- A search that succeeds keeps what is known.  From a fork that can be reached it has found
exactly the joins that are met, for every function that agrees with the pairs known in the end.
Each step takes a pending node or visits the transitions of one, so the number of steps suffices. -/
theorem joinsMet_exact (hPairer : pairer.Exact nodes fork)
    (hPaths : ∀ f, Node.fork f ∈ nodes → f.paths ≠ []) (steps : Nat) :
    ∀ (pending visited found : List String) (pairs : Pairs) (met : List String) (pairs' : Pairs),
      (∀ name ∈ pending, Relation.TransGen (Leads nodes) fork name) → Known nodes pairs →
      pending.length + edgesLeft nodes visited ≤ steps →
      joinsMet nodes pairer steps pending visited found pairs = .ok (met, pairs') →
      Known nodes pairs' ∧ Grown nodes fork pairs pairs' ∧
        (Reachable nodes fork → ∀ closing source, Agrees closing pairs' →
          Searching nodes closing source pending visited found →
          (∀ join, join ∈ met ↔ Meets nodes closing source join) ∧ met.Nodup) := by
  induction steps with
  | zero =>
      intro pending visited found pairs met pairs' _ hKnown hSteps hMet
      obtain rfl : pending = [] := List.length_eq_zero_iff.mp (by omega)
      cases hMet
      exact ⟨hKnown, .refl nodes fork pairs, fun _ closing source _ hSearch => hSearch.finish⟩
  | succ steps ih =>
      intro pending visited found pairs met pairs' hBehind hKnown hSteps hMet
      cases pending with
      | nil =>
          cases hMet
          exact ⟨hKnown, .refl nodes fork pairs, fun _ closing source _ hSearch => hSearch.finish⟩
      | cons name pending =>
          rw [List.length_cons] at hSteps
          have hRest : ∀ other ∈ pending, Relation.TransGen (Leads nodes) fork other :=
            fun other hOther => hBehind other (List.mem_cons_of_mem name hOther)
          by_cases hVisited : name ∈ visited
          · rw [joinsMet, if_pos (List.contains_iff_mem.mpr hVisited)] at hMet
            obtain ⟨hKnown', hGrown, hExact⟩ :=
              ih pending visited found pairs met pairs' hRest hKnown (by omega) hMet
            exact ⟨hKnown', hGrown, fun hReachable closing source hAgrees hSearch =>
              hExact hReachable closing source hAgrees (hSearch.skip hVisited)⟩
          · rw [joinsMet_cons hVisited] at hMet
            obtain ⟨⟨nexts, here, pairs1⟩, hExpand, hMet⟩ := bind_eq_ok_iff.mp hMet
            have hName := hBehind name List.mem_cons_self
            have hExpanded := expand_exact hPairer hPaths hName hKnown hExpand
            have hNexts : ∀ other ∈ nexts ++ pending,
                Relation.TransGen (Leads nodes) fork other := by
              intro other hOther
              rcases List.mem_append.mp hOther with hNext | hLater
              · exact hExpanded.behind other hNext
              · exact hRest other hLater
            have hEnough : (nexts ++ pending).length + edgesLeft nodes (name :: visited) ≤
                steps := by
              have hFew := hExpanded.few
              have hLeft : edgesLeft nodes (name :: visited) + (targets nodes name).length ≤
                  edgesLeft nodes visited := edgesLeft_visit hVisited
              rw [List.length_append]
              omega
            obtain ⟨hKnown', hGrown, hExact⟩ :=
              ih _ _ _ _ _ _ hNexts hExpanded.known hEnough hMet
            refine ⟨hKnown', hExpanded.grown.trans hGrown, ?_⟩
            intro hReachable closing source hAgrees hSearch
            apply hExact hReachable closing source hAgrees
            rw [hExpanded.met]
            exact hSearch.expand hVisited (hExpanded.nexts (hReachable.trans hName) closing
              (hAgrees.of_subset hGrown.subset))

/-- A search succeeds when the pairer does. -/
theorem joinsMet_total {closing : String → String} (hPairer : pairer.Exact nodes fork)
    (hTotal : pairer.Total nodes fork closing)
    (hPaths : ∀ f, Node.fork f ∈ nodes → f.paths ≠ []) (steps : Nat) :
    ∀ (pending visited found : List String) (pairs : Pairs),
      (∀ name ∈ pending, Relation.TransGen (Leads nodes) fork name) → Known nodes pairs →
      Agrees closing pairs →
      ∃ met pairs', joinsMet nodes pairer steps pending visited found pairs = .ok (met, pairs') ∧
        Agrees closing pairs' := by
  induction steps with
  | zero => exact fun pending visited found pairs _ _ hAgrees => ⟨found, pairs, rfl, hAgrees⟩
  | succ steps ih =>
      intro pending visited found pairs hBehind hKnown hAgrees
      cases pending with
      | nil => exact ⟨found, pairs, rfl, hAgrees⟩
      | cons name pending =>
          have hRest : ∀ other ∈ pending, Relation.TransGen (Leads nodes) fork other :=
            fun other hOther => hBehind other (List.mem_cons_of_mem name hOther)
          by_cases hVisited : name ∈ visited
          · rw [joinsMet, if_pos (List.contains_iff_mem.mpr hVisited)]
            exact ih pending visited found pairs hRest hKnown hAgrees
          · have hName := hBehind name List.mem_cons_self
            obtain ⟨nexts, here, pairs1, hExpand, hAgrees1⟩ :=
              expand_total hTotal hName hKnown hAgrees
            have hExpanded := expand_exact hPairer hPaths hName hKnown hExpand
            rw [joinsMet_cons hVisited, hExpand]
            refine ih (nexts ++ pending) (name :: visited) (found ++ here) pairs1 ?_
              hExpanded.known hAgrees1
            intro other hOther
            rcases List.mem_append.mp hOther with hNext | hLater
            · exact hExpanded.behind other hNext
            · exact hRest other hLater

end Search

end Workflow
end WorkflowDag
