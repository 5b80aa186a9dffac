import Mathlib.Data.List.Nodup
import WorkflowDag.Proofs.NodeGraph

/-!
# Forks lead to the joins that close them

Pairing follows transitions only: from the paths of a fork along success transitions, and over a
nested fork to what stands behind the join found for it (`Hops`).  A fork is put down once, behind
the forks nested in it, with a join that one of its paths leads to in this way.  Hence a chain of
transitions leads from every fork to the join that closes it.  No path of a fork starts at a join.

`Nested` is the invariant of the pairs found so far.  `Pairer.Nests` says what is asked of the
function that pairs nested forks; `pairFork_nests` gives it for every number of levels.  The search
for the joins of a path works on a list of pending nodes: `expand` is what looking at one of them
gives, and `joinsMet_cons` says that the search is nothing but expanding.
-/

namespace WorkflowDag
namespace Workflow

/-- One step on the way from a path of a fork to its join: over a fork that has been paired to what
stands behind its join, and along a transition of any other node. -/
inductive Hops (nodes : List Node) (pairs : Pairs) : String → String → Prop
  | next {name target : String} {node : Node} (hFind : find? nodes name = some node)
      (hFork : node.kind ≠ .fork) (hLeads : Leads nodes name target) :
      Hops nodes pairs name target
  | across {fork join target : String} (hPair : (fork, join) ∈ pairs)
      (hLeads : Leads nodes join target) : Hops nodes pairs fork target

/-- A path of the fork leads to the join, over the forks that have been paired. -/
def Spans (nodes : List Node) (pairs : Pairs) (fork join : String) : Prop :=
  ∃ path, Leads nodes fork path ∧ Relation.ReflTransGen (Hops nodes pairs) path join

/-- Pairs that have been put down one after the other, each fork once and behind those it spans. -/
inductive Nested (nodes : List Node) : Pairs → Prop
  | nil : Nested nodes []
  | concat {pairs : Pairs} {f : Fork} {join : String} (hPairs : Nested nodes pairs)
      (hFind : find? nodes f.name = some (.fork f)) (hNew : f.name ∉ pairs.map Prod.fst)
      (hStarts : ∀ path ∈ f.paths, isJoin nodes path = false)
      (hSpans : Spans nodes pairs f.name join) (hJoin : isJoin nodes join = true) :
      Nested nodes (pairs ++ [(f.name, join)])

section Lookups

variable {pairs : Pairs} {fork join : String}

theorem closing?_mem (hClosing : closing? pairs fork = some join) : (fork, join) ∈ pairs := by
  obtain ⟨pair, hFind, hJoin⟩ := Option.map_eq_some_iff.mp hClosing
  have hFork := List.find?_some hFind
  have hPair : pair = (fork, join) := Prod.ext (eq_of_beq hFork) hJoin
  exact hPair ▸ List.mem_of_find?_eq_some hFind

theorem closing?_eq_none_iff : closing? pairs fork = none ↔ fork ∉ pairs.map Prod.fst := by
  unfold closing?
  rw [Option.map_eq_none_iff, List.find?_eq_none, List.mem_map]
  constructor
  · rintro hNone ⟨pair, hPair, rfl⟩
    exact hNone pair hPair (beq_self_eq_true _)
  · intro hAbsent pair hPair hSame
    exact hAbsent ⟨pair, hPair, eq_of_beq hSame⟩

theorem closing?_of_mem (hKeys : (pairs.map Prod.fst).Nodup) (hPair : (fork, join) ∈ pairs) :
    closing? pairs fork = some join := by
  cases hClosing : closing? pairs fork with
  | none => exact absurd (List.mem_map.mpr ⟨_, hPair, rfl⟩) (closing?_eq_none_iff.mp hClosing)
  | some other =>
      have hSame := List.inj_on_of_nodup_map hKeys (closing?_mem hClosing) hPair rfl
      rw [(Prod.mk.inj hSame).2]

end Lookups

section Steps

variable {nodes : List Node} {pairs pairs' : Pairs} {name target : String}

theorem isJoin_iff : isJoin nodes name = true ↔
    ∃ joinName behind, find? nodes name = some (.join joinName behind) := by
  unfold isJoin
  cases hFind : find? nodes name with
  | none => simp
  | some node => cases node <;> simp

theorem leads_of_afterJoin? {join next : String} (hAfter : afterJoin? nodes join = some next) :
    Leads nodes join next :=
  List.mem_of_mem_head? hAfter

theorem leads_of_mem_successTargets {node : Node} (hFind : find? nodes name = some node)
    (hTarget : target ∈ successTargets node) : Leads nodes name target := by
  obtain ⟨transition, hTransition, hSame⟩ := List.mem_map.mp hTarget
  exact (leads_iff hFind).mpr ⟨transition, (List.mem_filter.mp hTransition).1, hSame⟩

/-- The transitions of a fork are its paths. -/
theorem leads_path {f : Fork} (hFind : find? nodes name = some (.fork f)) {path : String}
    (hPath : path ∈ f.paths) : Leads nodes name path :=
  (leads_iff hFind).mpr ⟨⟨.path, path, none⟩, List.mem_map.mpr ⟨path, hPath, rfl⟩, rfl⟩

theorem Hops.mono (hMore : pairs ⊆ pairs') (hHops : Hops nodes pairs name target) :
    Hops nodes pairs' name target := by
  cases hHops with
  | next hFind hFork hLeads => exact .next hFind hFork hLeads
  | across hPair hLeads => exact .across (hMore hPair) hLeads

theorem Hops.mono_refl (hMore : pairs ⊆ pairs')
    (hHops : Relation.ReflTransGen (Hops nodes pairs) name target) :
    Relation.ReflTransGen (Hops nodes pairs') name target :=
  Relation.ReflTransGen.mono (fun _ _ => Hops.mono hMore) _ _ hHops

/-- Where paired forks lead to their joins, hops are chains of transitions. -/
theorem Hops.transGen
    (hLead : ∀ pair ∈ pairs, Relation.TransGen (Leads nodes) pair.1 pair.2)
    (hHops : Hops nodes pairs name target) : Relation.TransGen (Leads nodes) name target := by
  cases hHops with
  | next _ _ hLeads => exact .single hLeads
  | across hPair hLeads => exact (hLead _ hPair).tail hLeads

theorem Hops.reflTransGen
    (hLead : ∀ pair ∈ pairs, Relation.TransGen (Leads nodes) pair.1 pair.2)
    (hHops : Relation.ReflTransGen (Hops nodes pairs) name target) :
    Relation.ReflTransGen (Leads nodes) name target := by
  induction hHops with
  | refl => exact .refl
  | tail _ hLast ih => exact ih.trans (hLast.transGen hLead).to_reflTransGen

end Steps

namespace Nested

variable {nodes : List Node} {pairs : Pairs}

theorem keys (hNested : Nested nodes pairs) : (pairs.map Prod.fst).Nodup := by
  induction hNested with
  | nil => exact List.nodup_nil
  | concat _ _ hNew _ _ _ ih =>
      rw [List.map_append, List.map_singleton, ← List.concat_eq_append]
      exact List.Nodup.concat hNew ih

/-- The pairs of a fork only rest on those put down before it, so they lead somewhere. -/
theorem leads (hNested : Nested nodes pairs) :
    ∀ pair ∈ pairs, Relation.TransGen (Leads nodes) pair.1 pair.2 := by
  induction hNested with
  | nil => exact fun _ hPair => absurd hPair List.not_mem_nil
  | concat _ _ _ _ hSpans _ ih =>
      intro pair hPair
      rcases List.mem_append.mp hPair with hOld | hNew
      · exact ih pair hOld
      · rw [List.mem_singleton.mp hNew]
        obtain ⟨path, hLeads, hHops⟩ := hSpans
        exact .head' hLeads (Hops.reflTransGen ih hHops)

theorem starts (hNested : Nested nodes pairs) : ∀ pair ∈ pairs, ∃ f,
    find? nodes pair.1 = some (.fork f) ∧ ∀ path ∈ f.paths, isJoin nodes path = false := by
  induction hNested with
  | nil => exact fun _ hPair => absurd hPair List.not_mem_nil
  | concat _ hFind _ hStarts _ _ ih =>
      intro pair hPair
      rcases List.mem_append.mp hPair with hOld | hNew
      · exact ih pair hOld
      · rw [List.mem_singleton.mp hNew]
        exact ⟨_, hFind, hStarts⟩

theorem joins (hNested : Nested nodes pairs) : ∀ pair ∈ pairs, isJoin nodes pair.2 = true := by
  induction hNested with
  | nil => exact fun _ hPair => absurd hPair List.not_mem_nil
  | concat _ _ _ _ _ hJoin ih =>
      intro pair hPair
      rcases List.mem_append.mp hPair with hOld | hNew
      · exact ih pair hOld
      · rw [List.mem_singleton.mp hNew]
        exact hJoin

end Nested

/-- What looking at a pending node gives: the nodes to look at next, the join met there, if any, and
the pairs known then. -/
def expand (nodes : List Node) (pairer : Pairer) (pairs : Pairs) (name : String) :
    Except Error (List String × List String × Pairs) :=
  match find? nodes name with
  | none => .ok ([], [], pairs)
  | some (.join _ _) => .ok ([], [name], pairs)
  | some (.fork f) =>
    (pairer pairs f).map fun result => ((result.1.bind (afterJoin? nodes)).toList, [], result.2)
  | some node => .ok ((successTargets node).reverse, [], pairs)

theorem expand_of_other {nodes : List Node} {pairer : Pairer} {pairs : Pairs} {name : String}
    {node : Node} (hFind : find? nodes name = some node) (hJoin : node.kind ≠ .join)
    (hFork : node.kind ≠ .fork) :
    expand nodes pairer pairs name = .ok ((successTargets node).reverse, [], pairs) := by
  unfold expand
  rw [hFind]
  cases node with
  | join joinName target => exact absurd rfl hJoin
  | fork f => exact absurd rfl hFork
  | start target => rfl
  | action a => rfl
  | decision d => rfl
  | kill killName message => rfl
  | finish endName => rfl

/-- The search is nothing but expanding pending nodes that are new to it. -/
theorem joinsMet_cons {nodes : List Node} {pairer : Pairer} {steps : Nat} {name : String}
    {pending visited found : List String} {pairs : Pairs} (hNew : name ∉ visited) :
    joinsMet nodes pairer (steps + 1) (name :: pending) visited found pairs =
      expand nodes pairer pairs name >>= fun step =>
        joinsMet nodes pairer steps (step.1 ++ pending) (name :: visited) (found ++ step.2.1)
          step.2.2 := by
  have hContains : visited.contains name = false := by
    rw [Bool.eq_false_iff]
    exact fun hMem => hNew (List.contains_iff_mem.mp hMem)
  rw [joinsMet, hContains]
  unfold expand
  cases hFind : find? nodes name with
  | none => simp [bind, Except.bind]
  | some node =>
      cases node with
      | fork f =>
          cases hPair : pairer pairs f with
          | error e => simp [bind, Except.bind, Except.map, hPair]
          | ok result => simp [bind, Except.bind, Except.map, hPair]
      | join joinName target => simp [bind, Except.bind]
      | start target => simp [bind, Except.bind]
      | action a => simp [bind, Except.bind]
      | decision d => simp [bind, Except.bind]
      | kill killName message => simp [bind, Except.bind]
      | finish endName => simp [bind, Except.bind]

/-- Pairs have been put down behind those there were, none of them of a fork being resolved. -/
structure Extends (nodes : List Node) (resolving : List String) (pairs pairs' : Pairs) : Prop where
  nested : Nested nodes pairs'
  subset : pairs ⊆ pairs'
  spared : ∀ fork ∈ resolving, fork ∈ pairs'.map Prod.fst → fork ∈ pairs.map Prod.fst

/-- A pairer only extends pairs, and puts the join down that it names. -/
def Pairer.Nests (nodes : List Node) (resolving : List String) (pairer : Pairer) : Prop :=
  ∀ pairs f join pairs', find? nodes f.name = some (.fork f) → Nested nodes pairs →
    pairer pairs f = .ok (join, pairs') →
    Extends nodes resolving pairs pairs' ∧ ∀ found, join = some found → (f.name, found) ∈ pairs'

/-- Each of the names can be reached from the source of a search. -/
def Behind (nodes : List Node) (pairs : Pairs) (source : String) (names : List String) : Prop :=
  ∀ name ∈ names, Relation.ReflTransGen (Hops nodes pairs) source name

section Search

variable {nodes : List Node} {resolving : List String} {pairs pairs' pairs'' : Pairs}
  {pairer : Pairer} {source : String}

theorem Extends.refl (hNested : Nested nodes pairs) : Extends nodes resolving pairs pairs :=
  ⟨hNested, List.Subset.refl _, fun _ _ hKey => hKey⟩

theorem Extends.trans (hFirst : Extends nodes resolving pairs pairs')
    (hSecond : Extends nodes resolving pairs' pairs'') : Extends nodes resolving pairs pairs'' where
  nested := hSecond.nested
  subset := List.Subset.trans hFirst.subset hSecond.subset
  spared := fun fork hFork hKey => hFirst.spared fork hFork (hSecond.spared fork hFork hKey)

theorem Behind.mono {names : List String} (hMore : pairs ⊆ pairs')
    (hBehind : Behind nodes pairs source names) : Behind nodes pairs' source names :=
  fun name hName => Hops.mono_refl hMore (hBehind name hName)

theorem Behind.append {first second : List String} (hFirst : Behind nodes pairs source first)
    (hSecond : Behind nodes pairs source second) : Behind nodes pairs source (first ++ second) :=
  fun name hName => (List.mem_append.mp hName).elim (hFirst name) (hSecond name)

/-- Looking at a node extends the pairs; the search goes on behind it and meets nothing but
joins. -/
theorem expand_nested (hPairer : pairer.Nests nodes resolving) {name : String}
    {nexts met : List String} (hNested : Nested nodes pairs)
    (hName : Relation.ReflTransGen (Hops nodes pairs) source name)
    (hExpand : expand nodes pairer pairs name = .ok (nexts, met, pairs')) :
    Extends nodes resolving pairs pairs' ∧ Behind nodes pairs' source nexts ∧
      ∀ join ∈ met, join = name ∧ isJoin nodes join = true := by
  have hNone : ∀ join ∈ ([] : List String), join = name ∧ isJoin nodes join = true :=
    fun _ hJoin => absurd hJoin List.not_mem_nil
  unfold expand at hExpand
  split at hExpand
  next =>
    cases hExpand
    exact ⟨.refl hNested, fun _ hNext => absurd hNext List.not_mem_nil, hNone⟩
  next joinName behind hFind =>
    cases hExpand
    refine ⟨.refl hNested, fun _ hNext => absurd hNext List.not_mem_nil, ?_⟩
    intro join hJoin
    rw [List.mem_singleton.mp hJoin]
    exact ⟨rfl, isJoin_iff.mpr ⟨joinName, behind, hFind⟩⟩
  next f hFind =>
    obtain rfl : f.name = name := name_of_find? hFind
    obtain ⟨⟨join, pairs1⟩, hPair, hSame⟩ := map_eq_ok_iff.mp hExpand
    cases hSame
    obtain ⟨hExtends, hFound⟩ := hPairer pairs f join pairs1 hFind hNested hPair
    refine ⟨hExtends, ?_, hNone⟩
    intro next hNext
    obtain ⟨found, hJoin, hAfter⟩ := Option.bind_eq_some_iff.mp (Option.mem_toList.mp hNext)
    exact (Hops.mono_refl hExtends.subset hName).tail
      (.across (hFound found hJoin) (leads_of_afterJoin? hAfter))
  next node hJoin hFork hFind =>
    cases hExpand
    refine ⟨.refl hNested, ?_, hNone⟩
    intro next hNext
    have hKind : node.kind ≠ .fork := by
      cases node with
      | fork f => exact absurd rfl (hFork f)
      | _ => simp [Node.kind]
    exact hName.tail
      (.next hFind hKind (leads_of_mem_successTargets hFind (List.mem_reverse.mp hNext)))

/-- Whatever is met from pending nodes lies behind the node that the search began at. -/
theorem joinsMet_nested (hPairer : pairer.Nests nodes resolving) (source : String) (steps : Nat) :
    ∀ (pending visited found : List String) (pairs : Pairs) (met : List String) (pairs' : Pairs),
      Behind nodes pairs source pending → Behind nodes pairs source found →
      (∀ join ∈ found, isJoin nodes join = true) → Nested nodes pairs →
      joinsMet nodes pairer steps pending visited found pairs = .ok (met, pairs') →
      Extends nodes resolving pairs pairs' ∧ Behind nodes pairs' source met ∧
        ∀ join ∈ met, isJoin nodes join = true := by
  induction steps with
  | zero =>
      intro pending visited found pairs met pairs' _ hFound hJoins hNested hMet
      cases hMet
      exact ⟨.refl hNested, hFound, hJoins⟩
  | succ steps ih =>
      intro pending visited found pairs met pairs' hPending hFound hJoins hNested hMet
      cases pending with
      | nil =>
          cases hMet
          exact ⟨.refl hNested, hFound, hJoins⟩
      | cons name pending =>
          have hName := hPending name List.mem_cons_self
          have hRest : Behind nodes pairs source pending :=
            fun other hOther => hPending other (List.mem_cons_of_mem name hOther)
          by_cases hVisited : name ∈ visited
          · rw [joinsMet, if_pos (List.contains_iff_mem.mpr hVisited)] at hMet
            exact ih _ _ _ _ _ _ hRest hFound hJoins hNested hMet
          rw [joinsMet_cons hVisited] at hMet
          obtain ⟨⟨nexts, here, pairs1⟩, hExpand, hMet⟩ := bind_eq_ok_iff.mp hMet
          obtain ⟨hExtends1, hNexts, hHere⟩ := expand_nested hPairer hNested hName hExpand
          have hHereBehind : Behind nodes pairs1 source here := by
            intro join hJoin
            rw [(hHere join hJoin).1]
            exact Hops.mono_refl hExtends1.subset hName
          obtain ⟨hExtends, hBehind, hAll⟩ := ih _ _ _ _ _ _
            (hNexts.append (hRest.mono hExtends1.subset))
            ((hFound.mono hExtends1.subset).append hHereBehind)
            (fun join hJoin =>
              (List.mem_append.mp hJoin).elim (hJoins join) fun hMem => (hHere join hMem).2)
            hExtends1.nested hMet
          exact ⟨hExtends1.trans hExtends, hBehind, hAll⟩

/-- A path that has been followed does not start at a join and meets one join only, the one met by
the paths before it; the others are followed with this join. -/
theorem closePaths_step {fork path : String} {rest : List String} {join join' : Option String}
    {pairs pairs' : Pairs}
    (hClose : closePaths nodes pairer fork join pairs (path :: rest) = .ok (join', pairs')) :
    isJoin nodes path = false ∧ ∃ found pairs1,
      joinsMet nodes pairer (edgeCount nodes + 1) [path] [] [] pairs = .ok ([found], pairs1) ∧
      (∀ other, join = some other → other = found) ∧
      closePaths nodes pairer fork (some found) pairs1 rest = .ok (join', pairs') := by
  rw [closePaths] at hClose
  by_cases hStarts : isJoin nodes path = true
  · rw [if_pos hStarts] at hClose
    cases hClose
  rw [if_neg hStarts] at hClose
  obtain ⟨⟨met, pairs1⟩, hMet, hClose⟩ := bind_eq_ok_iff.mp hClose
  refine ⟨Bool.eq_false_iff.mpr hStarts, ?_⟩
  rcases met with _ | ⟨found, _ | ⟨second, more⟩⟩
  · cases hClose
  · refine ⟨found, pairs1, hMet, ?_⟩
    cases join with
    | none => exact ⟨by simp, hClose⟩
    | some other =>
        by_cases hSame : found = other
        · simp only [if_pos hSame] at hClose
          subst hSame
          exact ⟨fun _ hOther => (Option.some.inj hOther).symm, hClose⟩
        · simp only [if_neg hSame] at hClose
          cases hClose
  · cases hClose

/-- The join met by the paths of a fork lies behind the fork, and no path starts at a join.  When
there are paths, there is a join. -/
theorem closePaths_nested (hPairer : pairer.Nests nodes resolving) {fork : String}
    (paths : List String) :
    ∀ (join : Option String) (pairs : Pairs) (join' : Option String) (pairs' : Pairs),
      (∀ path ∈ paths, Leads nodes fork path) →
      (∀ found, join = some found → Spans nodes pairs fork found ∧ isJoin nodes found = true) →
      Nested nodes pairs → closePaths nodes pairer fork join pairs paths = .ok (join', pairs') →
      Extends nodes resolving pairs pairs' ∧ (∀ path ∈ paths, isJoin nodes path = false) ∧
        (∀ found, join' = some found → Spans nodes pairs' fork found ∧ isJoin nodes found = true) ∧
        (paths ≠ [] ∨ join.isSome = true → join'.isSome = true) := by
  induction paths with
  | nil =>
      intro join pairs join' pairs' _ hJoin hNested hClose
      cases hClose
      exact ⟨.refl hNested, fun _ hPath => absurd hPath List.not_mem_nil, hJoin,
        fun hSome => hSome.resolve_left (· rfl)⟩
  | cons path rest ih =>
      intro join pairs join' pairs' hPaths hJoin hNested hClose
      obtain ⟨hStarts, found, pairs1, hMet, -, hClose⟩ := closePaths_step hClose
      obtain ⟨hExtends1, hBehind, hJoins⟩ := joinsMet_nested hPairer path _ [path] [] [] pairs
        [found] pairs1 (fun _ hName => List.mem_singleton.mp hName ▸ .refl)
        (fun _ hName => absurd hName List.not_mem_nil)
        (fun _ hName => absurd hName List.not_mem_nil) hNested hMet
      have hFound := hJoins found (List.mem_singleton.mpr rfl)
      have hSpans : Spans nodes pairs1 fork found :=
        ⟨path, hPaths path List.mem_cons_self, hBehind found (List.mem_singleton.mpr rfl)⟩
      obtain ⟨hExtends, hOthers, hJoin', hSome⟩ := ih (some found) pairs1 join' pairs'
        (fun other hOther => hPaths other (List.mem_cons_of_mem path hOther))
        (fun other hOther => Option.some.inj hOther ▸ ⟨hSpans, hFound⟩) hExtends1.nested hClose
      refine ⟨hExtends1.trans hExtends, ?_, hJoin', fun _ => hSome (Or.inr rfl)⟩
      intro other hOther
      rcases List.mem_cons.mp hOther with rfl | hLater
      · exact hStarts
      · exact hOthers other hLater

end Search

section Pairing

variable {nodes : List Node}

/-- Pairing a fork extends the pairs at every level.  A fork that is not being resolved already is
paired or refused, so none of its paths starts at a join. -/
theorem pairFork_step {levels : Nat} {resolving : List String}
    (hInner : ∀ fork, (pairFork nodes levels (fork :: resolving)).Nests nodes (fork :: resolving))
    {pairs pairs' : Pairs} {f : Fork} {join : Option String}
    (hFind : find? nodes f.name = some (.fork f)) (hNested : Nested nodes pairs)
    (hPair : pairFork nodes (levels + 1) resolving pairs f = .ok (join, pairs')) :
    Extends nodes resolving pairs pairs' ∧
      (∀ found, join = some found → (f.name, found) ∈ pairs') ∧
      (f.name ∉ resolving → (∀ path ∈ f.paths, isJoin nodes path = false) ∧
        (f.paths ≠ [] → join.isSome = true)) := by
  rw [pairFork] at hPair
  cases hKnown : closing? pairs f.name with
  | some known =>
      rw [hKnown] at hPair
      cases hPair
      have hMem := closing?_mem hKnown
      obtain ⟨g, hFork, hStarts⟩ := hNested.starts _ hMem
      cases hFind.symm.trans hFork
      refine ⟨.refl hNested, ?_, fun _ => ⟨hStarts, fun _ => rfl⟩⟩
      intro found hSame
      cases hSame
      exact hMem
  | none =>
      rw [hKnown] at hPair
      by_cases hResolving : resolving.contains f.name = true
      · -- A fork met again on its own paths is left to the search that it began.
        simp only [if_pos hResolving] at hPair
        cases hPair
        exact ⟨.refl hNested, (by simp),
          fun hAbsent => absurd (List.contains_iff_mem.mp hResolving) hAbsent⟩
      simp only [if_neg hResolving] at hPair
      obtain ⟨⟨join1, pairs1⟩, hClose, hPair⟩ := bind_eq_ok_iff.mp hPair
      obtain ⟨-, -, hPair⟩ := bind_eq_ok_iff.mp hPair
      obtain ⟨hExtends, hPaths, hJoin, hSome⟩ := closePaths_nested (hInner f.name) f.paths none
        pairs join1 pairs1 (fun path hPath => leads_path hFind hPath) (by simp) hNested hClose
      have hSpared : Extends nodes resolving pairs pairs1 :=
        ⟨hExtends.nested, hExtends.subset,
          fun fork hFork => hExtends.spared fork (List.mem_cons_of_mem _ hFork)⟩
      cases join1 with
      | none =>
          cases hPair
          exact ⟨hSpared, (by simp),
            fun _ => ⟨hPaths, fun hSome' => hSome (Or.inl hSome')⟩⟩
      | some found =>
          cases hPair
          obtain ⟨hSpans, hFound⟩ := hJoin found rfl
          -- The search has left the fork itself to the one who is resolving it.
          have hNew : f.name ∉ pairs1.map Prod.fst := fun hKey =>
            closing?_eq_none_iff.mp hKnown (hExtends.spared f.name List.mem_cons_self hKey)
          refine ⟨⟨.concat hExtends.nested hFind hNew hPaths hSpans hFound, ?_, ?_⟩, ?_,
            fun _ => ⟨hPaths, fun _ => rfl⟩⟩
          · exact List.Subset.trans hExtends.subset (List.subset_append_left _ _)
          · intro fork hFork hKey
            rw [List.map_append, List.mem_append] at hKey
            rcases hKey with hOld | hLast
            · exact hSpared.spared fork hFork hOld
            · obtain rfl : fork = f.name := List.mem_singleton.mp hLast
              exact absurd (List.contains_iff_mem.mpr hFork) hResolving
          · intro other hOther
            rw [← Option.some.inj hOther]
            exact List.mem_append_right _ (List.mem_singleton.mpr rfl)

theorem pairFork_nests (nodes : List Node) (levels : Nat) :
    ∀ resolving, (pairFork nodes levels resolving).Nests nodes resolving := by
  induction levels with
  | zero =>
      intro resolving pairs f join pairs' _ hNested hPair
      cases hPair
      exact ⟨.refl hNested, (by simp)⟩
  | succ levels ih =>
      intro resolving pairs f join pairs' hFind hNested hPair
      obtain ⟨hExtends, hJoin, -⟩ :=
        pairFork_step (fun fork => ih (fork :: resolving)) hFind hNested hPair
      exact ⟨hExtends, hJoin⟩

theorem joinsOfForks_skip {node : Node} (hFork : ∀ f, node ≠ .fork f) (pairs : Pairs)
    (rest : List Node) :
    joinsOfForks nodes pairs (node :: rest) = joinsOfForks nodes pairs rest := by
  cases node with
  | fork f => exact absurd rfl (hFork f)
  | _ => rfl

/-- Pairing the forks of a list extends the pairs and has checked the paths of each; a fork that has
paths is put down. -/
theorem joinsOfForks_nested (hDistinct : (nodes.map Node.name).Nodup) :
    ∀ (listed : List Node) (pairs pairs' : Pairs), listed ⊆ nodes → Nested nodes pairs →
      joinsOfForks nodes pairs listed = .ok pairs' →
      Nested nodes pairs' ∧ pairs ⊆ pairs' ∧
        ∀ f, Node.fork f ∈ listed → (∀ path ∈ f.paths, isJoin nodes path = false) ∧
          (f.paths ≠ [] → ∃ found, (f.name, found) ∈ pairs') := by
  intro listed
  induction listed with
  | nil =>
      intro pairs pairs' _ hNested hJoins
      cases hJoins
      exact ⟨hNested, List.Subset.refl _, fun f hFork => absurd hFork List.not_mem_nil⟩
  | cons node rest ih =>
      intro pairs pairs' hListed hNested hJoins
      have hRest : rest ⊆ nodes := fun other hOther => hListed (List.mem_cons_of_mem node hOther)
      by_cases hFork : ∃ f, node = .fork f
      · obtain ⟨f, rfl⟩ := hFork
        obtain ⟨⟨join, pairs1⟩, hPair, hJoins⟩ := bind_eq_ok_iff.mp hJoins
        have hMem : Node.fork f ∈ nodes := hListed List.mem_cons_self
        have hFind : find? nodes f.name = some (.fork f) := find?_name hDistinct hMem
        obtain ⟨hExtends, hFound, hOwn⟩ := pairFork_step
          (fun fork => pairFork_nests nodes nodes.length [fork]) hFind hNested hPair
        obtain ⟨hPaths, hSome⟩ := hOwn List.not_mem_nil
        obtain ⟨hNested', hSubset, hOthers⟩ := ih pairs1 pairs' hRest hExtends.nested hJoins
        refine ⟨hNested', List.Subset.trans hExtends.subset hSubset, ?_⟩
        intro other hOther
        rcases List.mem_cons.mp hOther with hSame | hLater
        · cases hSame
          refine ⟨hPaths, fun hNonempty => ?_⟩
          obtain ⟨found, rfl⟩ := Option.isSome_iff_exists.mp (hSome hNonempty)
          exact ⟨found, hSubset (hFound found rfl)⟩
        · exact hOthers other hLater
      · rw [joinsOfForks_skip (not_exists.mp hFork)] at hJoins
        obtain ⟨hNested', hSubset, hOthers⟩ := ih pairs pairs' hRest hNested hJoins
        refine ⟨hNested', hSubset, ?_⟩
        intro other hOther
        rcases List.mem_cons.mp hOther with hSame | hLater
        · exact absurd ⟨other, hSame.symm⟩ hFork
        · exact hOthers other hLater

end Pairing

end Workflow
end WorkflowDag
