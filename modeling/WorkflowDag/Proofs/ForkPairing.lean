import WorkflowDag.Proofs.CheckedWorkflow
import WorkflowDag.Proofs.CycleSearch
import WorkflowDag.Proofs.JoinSearch

/-!
# Pairing forks with joins is exact

Forks are paired one after the other, and pairing one pairs the forks nested in it first.  The forks
being resolved lie in front of one another, so the levels of nesting suffice (`Enclosed`).  Where no
cycle can be reached, a fork that can be reached is not met again while it is being resolved.

* Whatever pairing has found is known: each fork found that can be reached is closed by its join,
  whatever the other forks turn out to be closed by (`pairFork_exact`).
* Where all forks can be reached and some function closes them, pairing succeeds and agrees with it
  (`pairFork_total`), so there is only one such function on the forks of a workflow.
* The order in which forks are paired makes no difference (`pairsForks_of_joinsOfForks`).
* Forks that cannot be reached have no say: only one function closes the others (`closing_unique`),
  and reading a document finds it (`closesReachable_of_read`).
-/

namespace WorkflowDag
namespace Workflow

/-- What is settled before forks are paired. -/
structure Pairable (nodes : List Node) : Prop where
  distinct : (nodes.map Node.name).Nodup
  acyclic : ∀ name, Reachable nodes name → ¬Relation.TransGen (Leads nodes) name name
  paths : ∀ f, Node.fork f ∈ nodes → f.paths ≠ []

/-- Forks may be paired, and all of them can be reached. -/
structure Prepared (nodes : List Node) : Prop extends Pairable nodes where
  reachable : ∀ f, Node.fork f ∈ nodes → Reachable nodes f.name

/-- The function closes every fork. -/
def ClosesAll (nodes : List Node) (closing : String → String) : Prop :=
  ∀ f, Node.fork f ∈ nodes → Closes nodes closing f

/-- The function closes every fork that can be reached. -/
def ClosesReachable (nodes : List Node) (closing : String → String) : Prop :=
  ∀ f, find? nodes f.name = some (.fork f) → Reachable nodes f.name → Closes nodes closing f

/-- The pairs map exactly the forks, each to the join that the function names. -/
structure PairsForks (nodes : List Node) (closing : String → String) (pairs : Pairs) : Prop where
  keys : (pairs.map Prod.fst).Nodup
  mem : ∀ fork join, (fork, join) ∈ pairs ↔
    (∃ f, Node.fork f ∈ nodes ∧ f.name = fork) ∧ join = closing fork

section Closing

variable {pairs : Pairs}

/-- The function that pairs of different forks are taken from. -/
def closingOf (pairs : Pairs) (fork : String) : String :=
  (closing? pairs fork).getD ""

theorem agrees_closingOf (hKeys : (pairs.map Prod.fst).Nodup) : Agrees (closingOf pairs) pairs := by
  intro pair hPair
  unfold closingOf
  rw [closing?_of_mem hKeys hPair]
  rfl

end Closing

section Paths

variable {nodes : List Node} {pairer : Pairer} {fork : String}

/-- The search from a path of a fork: what it finds are the joins that are met from the path. -/
theorem joinsMet_path (hPairer : pairer.Exact nodes fork)
    (hPaths : ∀ f, Node.fork f ∈ nodes → f.paths ≠ []) {path : String}
    (hLeads : Leads nodes fork path) {pairs pairs' : Pairs} {met : List String}
    (hKnown : Known nodes pairs)
    (hMet : joinsMet nodes pairer (edgeCount nodes + 1) [path] [] [] pairs = .ok (met, pairs')) :
    Known nodes pairs' ∧ Grown nodes fork pairs pairs' ∧
      (Reachable nodes fork → ∀ closing, Agrees closing pairs' →
        (∀ join, join ∈ met ↔ Meets nodes closing path join) ∧ met.Nodup) := by
  have hBehind : ∀ name ∈ [path], Relation.TransGen (Leads nodes) fork name :=
    fun name hName => List.mem_singleton.mp hName ▸ .single hLeads
  have hSteps : [path].length + edgesLeft nodes [] ≤ edgeCount nodes + 1 := by
    rw [edgesLeft_nil, List.length_singleton]
    omega
  obtain ⟨hKnown', hGrown, hExact⟩ :=
    joinsMet_exact hPairer hPaths _ [path] [] [] pairs met pairs' hBehind hKnown hSteps hMet
  exact ⟨hKnown', hGrown, fun hReachable closing hAgrees =>
    hExact hReachable closing path hAgrees (.start nodes closing path)⟩

/-- Paths that have been followed do not start at a join, and those of a fork that can be reached
all meet the one join found. -/
theorem closePaths_exact (hPairer : pairer.Exact nodes fork)
    (hPaths : ∀ f, Node.fork f ∈ nodes → f.paths ≠ []) (paths : List String) :
    ∀ (join : Option String) (pairs : Pairs) (join' : Option String) (pairs' : Pairs),
      (∀ path ∈ paths, Leads nodes fork path) → Known nodes pairs →
      closePaths nodes pairer fork join pairs paths = .ok (join', pairs') →
      Known nodes pairs' ∧ Grown nodes fork pairs pairs' ∧
        (∀ found, join = some found → join' = some found) ∧
        ∀ path ∈ paths, isJoin nodes path = false ∧ ∃ found, join' = some found ∧
          (Reachable nodes fork → ∀ closing, Agrees closing pairs' →
            ∀ other, Meets nodes closing path other ↔ other = found) := by
  induction paths with
  | nil =>
      intro join pairs join' pairs' _ hKnown hClose
      cases hClose
      exact ⟨hKnown, .refl nodes fork pairs, fun found hFound => hFound,
        fun path hPath => absurd hPath List.not_mem_nil⟩
  | cons path rest ih =>
      intro join pairs join' pairs' hLeads hKnown hClose
      obtain ⟨hStarts, found, pairs1, hMet, hSame, hClose⟩ := closePaths_step hClose
      obtain ⟨hKnown1, hGrown1, hExact⟩ :=
        joinsMet_path hPairer hPaths (hLeads path List.mem_cons_self) hKnown hMet
      have hRest : ∀ other ∈ rest, Leads nodes fork other :=
        fun other hOther => hLeads other (List.mem_cons_of_mem path hOther)
      obtain ⟨hKnown', hGrown', hKept, hOthers⟩ :=
        ih (some found) pairs1 join' pairs' hRest hKnown1 hClose
      have hFound : join' = some found := hKept found rfl
      refine ⟨hKnown', hGrown1.trans hGrown', ?_, ?_⟩
      · intro other hOther
        rw [hSame other hOther]
        exact hFound
      · intro path' hPath'
        rcases List.mem_cons.mp hPath' with rfl | hLater
        · refine ⟨hStarts, found, hFound, ?_⟩
          intro hReachable closing hAgrees other
          have hMeets := (hExact hReachable closing (hAgrees.of_subset hGrown'.subset)).1 other
          rw [List.mem_singleton] at hMeets
          exact hMeets.symm
        · exact hOthers path' hLater

/-- Where all paths meet the one join, following them succeeds. -/
theorem closePaths_total {closing : String → String} (hReachable : Reachable nodes fork)
    (hPairer : pairer.Exact nodes fork) (hTotal : pairer.Total nodes fork closing)
    (hPaths : ∀ f, Node.fork f ∈ nodes → f.paths ≠ []) (paths : List String) :
    ∀ (join : Option String) (pairs : Pairs), (∀ path ∈ paths, Leads nodes fork path) →
      (∀ path ∈ paths, isJoin nodes path = false ∧
        ∀ other, Meets nodes closing path other ↔ other = closing fork) →
      Known nodes pairs → Agrees closing pairs →
      (∀ found, join = some found → found = closing fork) →
      ∃ join' pairs', closePaths nodes pairer fork join pairs paths = .ok (join', pairs') ∧
        Agrees closing pairs' ∧ (paths = [] ∨ join' = some (closing fork)) := by
  induction paths with
  | nil =>
      intro join pairs _ _ _ hAgrees _
      exact ⟨join, pairs, rfl, hAgrees, Or.inl rfl⟩
  | cons path rest ih =>
      intro join pairs hLeads hClosed hKnown hAgrees hJoin
      obtain ⟨hStarts, hMeets⟩ := hClosed path List.mem_cons_self
      have hFirst := hLeads path List.mem_cons_self
      obtain ⟨met, pairs1, hMet, hAgrees1⟩ := joinsMet_total hPairer hTotal hPaths
        (edgeCount nodes + 1) [path] [] [] pairs
        (fun name hName => List.mem_singleton.mp hName ▸ .single hFirst) hKnown hAgrees
      obtain ⟨hKnown1, -, hExact⟩ := joinsMet_path hPairer hPaths hFirst hKnown hMet
      obtain ⟨hFound, hDistinct⟩ := hExact hReachable closing hAgrees1
      -- Nothing else is found, and nothing is found twice.
      have hOnly : met = [closing fork] := by
        have hMem : ∀ other, other ∈ met ↔ other = closing fork :=
          fun other => (hFound other).trans (hMeets other)
        rcases met with _ | ⟨first, _ | ⟨second, others⟩⟩
        · exact absurd ((hMem _).mpr rfl) List.not_mem_nil
        · rw [(hMem first).mp (List.mem_singleton.mpr rfl)]
        · have hBoth : first = second := ((hMem first).mp List.mem_cons_self).trans
            ((hMem second).mp (List.mem_cons_of_mem _ List.mem_cons_self)).symm
          exact absurd (hBoth ▸ List.mem_cons_self) (List.nodup_cons.mp hDistinct).1
      obtain ⟨join', pairs', hClose, hAgrees', hLast⟩ := ih (some (closing fork)) pairs1
        (fun other hOther => hLeads other (List.mem_cons_of_mem path hOther))
        (fun other hOther => hClosed other (List.mem_cons_of_mem path hOther)) hKnown1 hAgrees1
        (fun found hSome => (Option.some.inj hSome).symm)
      have hNext : closePaths nodes pairer fork join pairs (path :: rest) =
          closePaths nodes pairer fork (some (closing fork)) pairs1 rest := by
        rw [closePaths, hStarts, hMet, hOnly]
        cases join with
        | none => rfl
        | some found =>
            rw [hJoin found rfl]
            simp [bind, Except.bind]
      refine ⟨join', pairs', hNext.trans hClose, hAgrees', Or.inr ?_⟩
      rcases hLast with rfl | hLast
      · cases hClose
        rfl
      · exact hLast

end Paths

section Declaring

variable {nodes : List Node} {f : Fork} {found : String}

theorem eq_of_checkDeclared (hCheck : checkDeclared nodes f (some found) = .ok ()) :
    ∀ join, f.declaredJoin = some join → join = found := by
  intro join hDeclared
  unfold checkDeclared at hCheck
  rw [hDeclared] at hCheck
  simp only at hCheck
  split at hCheck
  · cases hCheck
  · split at hCheck
    · cases hCheck
    · split at hCheck
      next hSame => exact hSame
      next => cases hCheck

theorem checkDeclared_of_eq (hJoin : isJoin nodes found = true)
    (hDeclared : ∀ join, f.declaredJoin = some join → join = found) :
    checkDeclared nodes f (some found) = .ok () := by
  obtain ⟨joinName, behind, hFind⟩ := isJoin_iff.mp hJoin
  unfold checkDeclared
  cases hOwn : f.declaredJoin with
  | none => rfl
  | some join =>
      rw [hDeclared join hOwn]
      simp [hFind, Node.kind]

end Declaring

/-- What pairing one fork gives.  A fork that is met again while it is being resolved has no join
yet. -/
structure Resolved (nodes : List Node) (resolving : List String) (fork : String)
    (join : Option String) (pairs pairs' : Pairs) : Prop where
  known : Known nodes pairs'
  subset : pairs ⊆ pairs'
  behind : ∀ pair ∈ pairs', pair ∈ pairs ∨ Relation.ReflTransGen (Leads nodes) fork pair.1
  paired : ∀ found, join = some found → (fork, found) ∈ pairs'
  named : fork ∉ resolving → join.isSome = true

section Pairing

variable {nodes : List Node} {closing : String → String}

/-- A fork whose paths have been followed is known with the join that they meet. -/
theorem Known.concat (hPairable : Pairable nodes) {pairs : Pairs} {f : Fork} {found : String}
    (hFind : find? nodes f.name = some (.fork f)) (hKnown : Known nodes pairs)
    (hNested : Nested nodes (pairs ++ [(f.name, found)]))
    (hPaths : ∀ path ∈ f.paths, isJoin nodes path = false ∧ (Reachable nodes f.name →
      ∀ closing, Agrees closing pairs → ∀ other, Meets nodes closing path other ↔ other = found))
    (hDeclared : ∀ join, f.declaredJoin = some join → join = found) :
    Known nodes (pairs ++ [(f.name, found)]) where
  nested := hNested
  closes := by
    intro closing hAgrees g hFindG hReachable hKey
    have hAgrees1 : Agrees closing pairs :=
      hAgrees.of_subset (List.subset_append_left _ _)
    rw [List.map_append, List.mem_append] at hKey
    rcases hKey with hOld | hLast
    · exact hKnown.closes closing hAgrees1 g hFindG hReachable hOld
    · rw [List.map_singleton, List.mem_singleton] at hLast
      rw [hLast, hFind] at hFindG
      cases hFindG
      have hClosing : closing f.name = found :=
        hAgrees _ (List.mem_append_right _ (List.mem_singleton.mpr rfl))
      rw [← hClosing] at hPaths hDeclared
      have hMeets : ∀ path ∈ f.paths, ∀ other,
          Meets nodes closing path other ↔ other = closing f.name :=
        fun path hPath => (hPaths path hPath).2 hReachable closing hAgrees1
      obtain ⟨path, hPath⟩ :=
        List.exists_mem_of_ne_nil _ (hPairable.paths f (mem_of_find? hFind))
      exact ⟨((hMeets path hPath _).mpr rfl).2, fun path hPath => (hPaths path hPath).1, hMeets,
        hDeclared⟩

/-- What resolves the forks behind a fork gives their joins to a search from it. -/
theorem exact_of_resolved (hPairable : Pairable nodes) {levels : Nat} {resolving : List String}
    {fork : String}
    (hInside : ∀ inner, Relation.TransGen (Leads nodes) fork inner →
      Enclosed nodes levels resolving inner)
    (hResolved : ∀ (g : Fork) (pairs : Pairs) (join : Option String) (pairs' : Pairs),
      Enclosed nodes levels resolving g.name → find? nodes g.name = some (.fork g) →
      Known nodes pairs → pairFork nodes levels resolving pairs g = .ok (join, pairs') →
      Resolved nodes resolving g.name join pairs pairs') :
    (pairFork nodes levels resolving).Exact nodes fork := by
  intro g pairs join pairs' hFind hBehind hKnown hPair
  have hEnclosed := hInside g.name hBehind
  have hInner := hResolved g pairs join pairs' hEnclosed hFind hKnown hPair
  refine ⟨hInner.known, ⟨hInner.subset, ?_⟩, hInner.paired, ?_⟩
  · intro pair hPair
    exact (hInner.behind pair hPair).imp_right hBehind.trans_left
  · intro hReachable
    exact hInner.named (hEnclosed.notMem (hPairable.acyclic g.name hReachable))

/-- Pairing a fork that succeeds gives its join, and all that is paired on the way is known. -/
theorem pairFork_exact (hPairable : Pairable nodes) (levels : Nat) :
    ∀ (resolving : List String) (f : Fork) (pairs : Pairs) (join : Option String) (pairs' : Pairs),
      Enclosed nodes levels resolving f.name → find? nodes f.name = some (.fork f) →
      Known nodes pairs → pairFork nodes levels resolving pairs f = .ok (join, pairs') →
      Resolved nodes resolving f.name join pairs pairs' := by
  induction levels with
  | zero =>
      intro resolving f pairs join pairs' hEnclosed
      exact absurd rfl hEnclosed.levels_ne_zero
  | succ levels ih =>
      intro resolving f pairs join pairs' hEnclosed hFind hKnown hPair
      obtain ⟨hExtends, hPaired⟩ :=
        pairFork_nests nodes (levels + 1) resolving pairs f join pairs' hFind hKnown.nested hPair
      rw [pairFork] at hPair
      cases hClosing : closing? pairs f.name with
      | some known =>
          rw [hClosing] at hPair
          cases hPair
          exact ⟨hKnown, hExtends.subset, fun _ hPair => Or.inl hPair, hPaired, fun _ => rfl⟩
      | none =>
          rw [hClosing] at hPair
          by_cases hMem : f.name ∈ resolving
          · -- Met again: nothing is paired, and the fork has no join yet.
            simp only [if_pos (List.contains_iff_mem.mpr hMem)] at hPair
            cases hPair
            exact ⟨hKnown, hExtends.subset, fun _ hPair => Or.inl hPair, hPaired,
              fun hNew => absurd hMem hNew⟩
          · simp only [if_neg (fun hHas => hMem (List.contains_iff_mem.mp hHas))] at hPair
            obtain ⟨⟨join1, pairs1⟩, hClose, hPair⟩ := bind_eq_ok_iff.mp hPair
            obtain ⟨⟨⟩, hDeclared, hPair⟩ := bind_eq_ok_iff.mp hPair
            -- The forks behind it are resolved with this one in hand, and one level less.
            have hNested := exact_of_resolved hPairable (fun _ => hEnclosed.nest hMem hFind) (ih _)
            obtain ⟨hKnown1, hGrown, -, hPaths⟩ := closePaths_exact hNested hPairable.paths f.paths
              none pairs join1 pairs1 (fun path hPath => leads_path hFind hPath) hKnown hClose
            obtain ⟨path, hPath⟩ :=
              List.exists_mem_of_ne_nil _ (hPairable.paths f (mem_of_find? hFind))
            obtain ⟨-, found, rfl, -⟩ := hPaths path hPath
            cases hPair
            have hMeets : ∀ path ∈ f.paths, isJoin nodes path = false ∧ (Reachable nodes f.name →
                ∀ closing, Agrees closing pairs1 →
                  ∀ other, Meets nodes closing path other ↔ other = found) := by
              intro path hPath
              obtain ⟨hStarts, found', hSame, hMeets⟩ := hPaths path hPath
              cases hSame
              exact ⟨hStarts, hMeets⟩
            refine ⟨Known.concat hPairable hFind hKnown1 hExtends.nested hMeets
              (eq_of_checkDeclared hDeclared), hExtends.subset, ?_, hPaired, fun _ => rfl⟩
            intro pair hPair
            rcases List.mem_append.mp hPair with hEarlier | hLast
            · exact (hGrown.behind pair hEarlier).imp_right Relation.TransGen.to_reflTransGen
            · rw [List.mem_singleton.mp hLast]
              exact Or.inr .refl

/-- Where a function closes all forks, pairing a fork succeeds and agrees with it. -/
theorem pairFork_total (hPrepared : Prepared nodes) (hCloses : ClosesAll nodes closing)
    (levels : Nat) :
    ∀ (resolving : List String) (f : Fork) (pairs : Pairs),
      Enclosed nodes levels resolving f.name → find? nodes f.name = some (.fork f) →
      Known nodes pairs → Agrees closing pairs →
      ∃ pairs', pairFork nodes levels resolving pairs f = .ok (some (closing f.name), pairs') ∧
        Agrees closing pairs' := by
  induction levels with
  | zero =>
      intro resolving f pairs hEnclosed
      exact absurd rfl hEnclosed.levels_ne_zero
  | succ levels ih =>
      intro resolving f pairs hEnclosed hFind hKnown hAgrees
      have hMem := mem_of_find? hFind
      have hReachable := hPrepared.reachable f hMem
      have hOwn := hCloses f hMem
      rw [pairFork]
      cases hClosing : closing? pairs f.name with
      | some known =>
          have hSame : closing f.name = known := hAgrees _ (closing?_mem hClosing)
          exact ⟨pairs, by rw [hSame], hAgrees⟩
      | none =>
          have hNew := hEnclosed.notMem (hPrepared.acyclic _ hReachable)
          simp only [if_neg (fun hMem => hNew (List.contains_iff_mem.mp hMem))]
          have hInside : ∀ inner, Relation.TransGen (Leads nodes) f.name inner →
              Enclosed nodes levels (f.name :: resolving) inner :=
            fun _ => hEnclosed.nest hNew hFind
          have hNested := exact_of_resolved hPrepared.toPairable hInside
            (pairFork_exact hPrepared.toPairable levels _)
          have hNestedTotal :
              (pairFork nodes levels (f.name :: resolving)).Total nodes f.name closing :=
            fun g pairs hFindG hBehind => ih _ g pairs (hInside g.name hBehind) hFindG
          obtain ⟨join, pairs1, hClose, hAgrees1, hLast⟩ := closePaths_total hReachable hNested
            hNestedTotal hPrepared.paths f.paths none pairs
            (fun path hPath => leads_path hFind hPath)
            (fun path hPath => ⟨hOwn.paths path hPath, hOwn.meets path hPath⟩) hKnown hAgrees
            (by simp)
          obtain rfl := hLast.resolve_left (hPrepared.paths f hMem)
          rw [hClose]
          refine ⟨pairs1 ++ [(f.name, closing f.name)], ?_, ?_⟩
          · show (checkDeclared nodes f (some (closing f.name)) >>= fun _ =>
              pure (some (closing f.name), pairs1 ++ [(f.name, closing f.name)])) = _
            rw [checkDeclared_of_eq hOwn.join hOwn.declared]
            rfl
          · intro pair hPair
            rcases List.mem_append.mp hPair with hEarlier | hLast
            · exact hAgrees1 pair hEarlier
            · rw [List.mem_singleton.mp hLast]

end Pairing

section Order

variable {nodes : List Node} {closing : String → String}

/-- Pairing forks in some order finds a join of each of them. -/
theorem joinsOfForks_exact (hPairable : Pairable nodes) (order : List Node) :
    ∀ pairs pairs' : Pairs, order ⊆ nodes → Known nodes pairs →
      joinsOfForks nodes pairs order = .ok pairs' →
      Known nodes pairs' ∧ pairs ⊆ pairs' ∧
        ∀ f, Node.fork f ∈ order → f.name ∈ pairs'.map Prod.fst := by
  induction order with
  | nil =>
      intro pairs pairs' _ hKnown hJoins
      cases hJoins
      exact ⟨hKnown, List.Subset.refl _, fun f hFork => absurd hFork List.not_mem_nil⟩
  | cons node rest ih =>
      intro pairs pairs' hOrder hKnown hJoins
      obtain ⟨hNode, hRest⟩ := List.cons_subset.mp hOrder
      by_cases hFork : ∃ f, node = .fork f
      · obtain ⟨f, rfl⟩ := hFork
        obtain ⟨⟨join, pairs1⟩, hPair, hJoins⟩ := bind_eq_ok_iff.mp hJoins
        have hResolved := pairFork_exact hPairable _ [] f pairs join pairs1
          (.outermost nodes f.name) (find?_name hPairable.distinct hNode) hKnown hPair
        obtain ⟨hKnown', hSubset, hOthers⟩ := ih pairs1 pairs' hRest hResolved.known hJoins
        refine ⟨hKnown', List.Subset.trans hResolved.subset hSubset, ?_⟩
        intro other hOther
        rcases List.mem_cons.mp hOther with hSame | hLater
        · cases hSame
          obtain ⟨found, hFound⟩ :=
            Option.isSome_iff_exists.mp (hResolved.named List.not_mem_nil)
          exact List.mem_map.mpr ⟨_, hSubset (hResolved.paired found hFound), rfl⟩
        · exact hOthers other hLater
      · rw [joinsOfForks_skip (not_exists.mp hFork)] at hJoins
        obtain ⟨hKnown', hSubset, hOthers⟩ := ih pairs pairs' hRest hKnown hJoins
        refine ⟨hKnown', hSubset, ?_⟩
        intro other hOther
        rcases List.mem_cons.mp hOther with hSame | hLater
        · exact absurd ⟨other, hSame.symm⟩ hFork
        · exact hOthers other hLater

theorem joinsOfForks_total (hPrepared : Prepared nodes) (hCloses : ClosesAll nodes closing)
    (order : List Node) :
    ∀ pairs : Pairs, order ⊆ nodes → Known nodes pairs → Agrees closing pairs →
      ∃ pairs', joinsOfForks nodes pairs order = .ok pairs' ∧ Agrees closing pairs' := by
  induction order with
  | nil => exact fun pairs _ _ hAgrees => ⟨pairs, rfl, hAgrees⟩
  | cons node rest ih =>
      intro pairs hOrder hKnown hAgrees
      obtain ⟨hNode, hRest⟩ := List.cons_subset.mp hOrder
      by_cases hFork : ∃ f, node = .fork f
      · obtain ⟨f, rfl⟩ := hFork
        have hFind := find?_name hPrepared.distinct hNode
        obtain ⟨pairs1, hPair, hAgrees1⟩ := pairFork_total hPrepared hCloses _ [] f pairs
          (.outermost nodes f.name) hFind hKnown hAgrees
        have hKnown1 := (pairFork_exact hPrepared.toPairable _ [] f pairs _ pairs1
          (.outermost nodes f.name) hFind hKnown hPair).known
        obtain ⟨pairs', hJoins, hAgrees'⟩ := ih pairs1 hRest hKnown1 hAgrees1
        exact ⟨pairs', bind_eq_ok_iff.mpr ⟨_, hPair, hJoins⟩, hAgrees'⟩
      · rw [joinsOfForks_skip (not_exists.mp hFork)]
        exact ih pairs hRest hKnown hAgrees

theorem Known.nil (nodes : List Node) : Known nodes [] where
  nested := .nil
  closes := fun _ _ _ _ _ hKey => absurd hKey List.not_mem_nil

variable {order : List Node}

/-- Pairing succeeds exactly when some function closes all forks. -/
theorem joinsOfForks_eq_ok_iff (hPrepared : Prepared nodes) (hOrder : order.Perm nodes) :
    (∃ pairs, joinsOfForks nodes [] order = .ok pairs) ↔ ∃ closing, ClosesAll nodes closing := by
  constructor
  · rintro ⟨pairs, hJoins⟩
    obtain ⟨hKnown, -, hForks⟩ :=
      joinsOfForks_exact hPrepared.toPairable order [] pairs hOrder.subset (.nil nodes) hJoins
    refine ⟨closingOf pairs, ?_⟩
    intro f hFork
    exact hKnown.closes _ (agrees_closingOf hKnown.nested.keys) f
      (find?_name hPrepared.distinct hFork) (hPrepared.reachable f hFork)
      (hForks f (hOrder.mem_iff.mpr hFork))
  · rintro ⟨closing, hCloses⟩
    obtain ⟨pairs, hJoins, -⟩ := joinsOfForks_total hPrepared hCloses order [] hOrder.subset
      (.nil nodes) (fun _ hPair => absurd hPair List.not_mem_nil)
    exact ⟨pairs, hJoins⟩

/-- Whatever the order, the pairs are those of any function that closes all forks. -/
theorem pairsForks_of_joinsOfForks (hPrepared : Prepared nodes) (hOrder : order.Perm nodes)
    (hCloses : ClosesAll nodes closing) {pairs : Pairs}
    (hJoins : joinsOfForks nodes [] order = .ok pairs) : PairsForks nodes closing pairs := by
  obtain ⟨hKnown, -, hForks⟩ :=
    joinsOfForks_exact hPrepared.toPairable order [] pairs hOrder.subset (.nil nodes) hJoins
  obtain ⟨pairs', hJoins', hAgrees⟩ := joinsOfForks_total hPrepared hCloses order []
    hOrder.subset (.nil nodes) (fun _ hPair => absurd hPair List.not_mem_nil)
  obtain rfl : pairs = pairs' := Except.ok.inj (hJoins.symm.trans hJoins')
  refine ⟨hKnown.nested.keys, ?_⟩
  intro fork join
  constructor
  · intro hPair
    obtain ⟨f, hFind, -⟩ := hKnown.nested.starts _ hPair
    exact ⟨⟨f, mem_of_find? hFind, name_of_find? hFind⟩, (hAgrees _ hPair).symm⟩
  · rintro ⟨⟨f, hFork, rfl⟩, rfl⟩
    obtain ⟨⟨fork, join⟩, hPair, hKey⟩ :=
      List.mem_map.mp (hForks f (hOrder.mem_iff.mpr hFork))
    obtain rfl : fork = f.name := hKey
    rw [hAgrees _ hPair]
    exact hPair

end Order

section Uniqueness

variable {nodes : List Node} {closing closing' : String → String}

/-- Functions that agree on the forks behind a fork take the same steps from its paths, and these
stay behind the fork. -/
theorem follows_of_inner {f : Fork}
    (hInner : ∀ g, find? nodes g.name = some (.fork g) →
      Relation.TransGen (Leads nodes) f.name g.name →
      closing g.name = closing' g.name ∧ Relation.TransGen (Leads nodes) g.name (closing g.name))
    {path name : String} (hPath : Leads nodes f.name path)
    (hFollows : Relation.ReflTransGen (Follows nodes closing) path name) :
    Relation.ReflTransGen (Follows nodes closing') path name ∧
      Relation.TransGen (Leads nodes) f.name name := by
  induction hFollows with
  | refl => exact ⟨.refl, .single hPath⟩
  | @tail name next _ hLast ih =>
      obtain ⟨hFollows, hBehind⟩ := ih
      cases hLast with
      | @fork _ _ g hFind hJoin =>
          obtain rfl : g.name = name := name_of_find? hFind
          obtain ⟨hSame, hLeads⟩ := hInner g hFind hBehind
          have hAfter : Leads nodes (closing g.name) next :=
            (leads_iff hJoin).mpr ⟨_, List.mem_cons_self, rfl⟩
          exact ⟨hFollows.tail (.fork hFind (hSame ▸ hJoin)), (hBehind.trans hLeads).tail hAfter⟩
      | other hFind hJoin hFork hTarget =>
          exact ⟨hFollows.tail (.other hFind hJoin hFork hTarget),
            hBehind.tail (leads_of_mem_successTargets hFind hTarget)⟩

/-- Functions that close all forks that can be reached name the same joins, which stand behind the
forks. -/
theorem closing_unique (hPairable : Pairable nodes) (hCloses : ClosesReachable nodes closing)
    (hCloses' : ClosesReachable nodes closing') (levels : Nat) :
    ∀ (outside : List String) (f : Fork), Enclosed nodes levels outside f.name →
      find? nodes f.name = some (.fork f) → Reachable nodes f.name →
      closing f.name = closing' f.name ∧
        Relation.TransGen (Leads nodes) f.name (closing f.name) := by
  induction levels with
  | zero =>
      intro outside f hEnclosed
      exact absurd rfl hEnclosed.levels_ne_zero
  | succ levels ih =>
      intro outside f hEnclosed hFind hReachable
      have hNew := hEnclosed.notMem (hPairable.acyclic _ hReachable)
      have hOwn := hCloses f hFind hReachable
      have hOwn' := hCloses' f hFind hReachable
      obtain ⟨path, hPath⟩ :=
        List.exists_mem_of_ne_nil _ (hPairable.paths f (mem_of_find? hFind))
      -- The join that the first function names is met from a path, by steps that the second takes
      -- too.
      have hMeets : Meets nodes closing path (closing f.name) :=
        (hOwn.meets path hPath _).mpr rfl
      obtain ⟨hFollows, hBehind⟩ := follows_of_inner
        (fun g hFindG hInner =>
          ih _ g (hEnclosed.nest hNew hFind hInner) hFindG (hReachable.trans hInner))
        (leads_path hFind hPath) hMeets.1
      exact ⟨(hOwn'.meets path hPath _).mp ⟨hFollows, hOwn.join⟩, hBehind⟩

variable {source : String} {w : Workflow}

theorem pairable_of_read (hRead : (read source).result = .ok w) : Pairable w.nodes := by
  obtain ⟨hNamed, hElements, hLink⟩ := linked_of_read hRead
  obtain ⟨-, -, hAcyclic, -⟩ := link_eq_ok_iff.mp hLink
  refine ⟨hNamed.distinct, fun _ => not_cycle_of_checkAcyclic hAcyclic, fun f hFork => ?_⟩
  obtain ⟨e, hNode⟩ := hElements _ hFork
  exact Node.paths_ne_nil_of_ofElement hNode

/-- Whatever the other forks are, those that can be reached are closed by the joins found. -/
theorem closesReachable_of_read (hRead : (read source).result = .ok w) :
    ClosesReachable w.nodes (closingOf w.closingJoins) := by
  obtain ⟨-, -, hLink⟩ := linked_of_read hRead
  obtain ⟨-, -, -, hJoins⟩ := link_eq_ok_iff.mp hLink
  obtain ⟨hKnown, -, hForks⟩ := joinsOfForks_exact (pairable_of_read hRead) w.nodes []
    w.closingJoins (List.Subset.refl _) (.nil w.nodes) hJoins
  intro f hFind hReachable
  exact hKnown.closes _ (agrees_closingOf hKnown.nested.keys) f hFind hReachable
    (hForks f (mem_of_find? hFind))

end Uniqueness

end Workflow
end WorkflowDag
