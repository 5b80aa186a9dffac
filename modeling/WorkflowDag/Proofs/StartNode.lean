import WorkflowDag.Proofs.DocumentOrder

/-!
# The start of a workflow

The start has no name in a document and is known under a reserved one.  Reading a document asks
whether some node has that name, and nothing keeps a node of another kind from taking it.

* A document that is read has exactly one section that takes the name, and its node is found under
  it (`exists_bearer_of_read`).  The section need not be a start; where no node of another kind
  takes the name, it is the one start.
* A document whose nodes can be read under names of their own is refused for the lack of a start
  exactly when no section takes the name (`read_eq_noStart_iff`).

Main statement: `start_name_exact`.
-/

namespace WorkflowDag

/-- Whatever the computation fails with, it is not the lack of a start. -/
def SparesStart {α : Type} (x : Except Error α) : Prop :=
  x ≠ .error (.malformedNode Node.startName .noStart)

namespace SparesStart

variable {α β : Type}

theorem ok (a : α) : SparesStart (.ok a) :=
  fun hFails => by cases hFails

theorem fault {owner : String} {fault : NodeFault} (hOther : fault ≠ .noStart) :
    SparesStart (.error (.malformedNode owner fault) : Except Error α) :=
  fun hFails => hOther (Error.malformedNode.inj (Except.error.inj hFails)).2

theorem bind {x : Except Error α} {f : α → Except Error β} (hFirst : SparesStart x)
    (hNext : ∀ a, SparesStart (f a)) : SparesStart (x >>= f) := by
  intro hFails
  rcases bind_eq_error_iff.mp hFails with hFails | ⟨a, -, hFails⟩
  · exact hFirst hFails
  · exact hNext a hFails

end SparesStart

namespace Workflow

section Pairing

variable {nodes : List Node} {pairer : Pairer}

theorem sparesStart_expand (hPairer : ∀ pairs f, SparesStart (pairer pairs f)) (pairs : Pairs)
    (name : String) : SparesStart (expand nodes pairer pairs name) := by
  unfold expand
  split
  next => exact .ok _
  next => exact .ok _
  next f _ => exact fun hFails => hPairer pairs f (map_eq_error_iff.mp hFails)
  next => exact .ok _

theorem sparesStart_joinsMet (hPairer : ∀ pairs f, SparesStart (pairer pairs f)) (steps : Nat) :
    ∀ pending visited found pairs,
      SparesStart (joinsMet nodes pairer steps pending visited found pairs) := by
  induction steps with
  | zero => exact fun _ _ _ _ => .ok _
  | succ steps ih =>
      intro pending visited found pairs
      cases pending with
      | nil => exact .ok _
      | cons name pending =>
          by_cases hVisited : name ∈ visited
          · rw [joinsMet, if_pos (List.contains_iff_mem.mpr hVisited)]
            exact ih pending visited found pairs
          · rw [joinsMet_cons hVisited]
            exact (sparesStart_expand hPairer pairs name).bind fun _ => ih _ _ _ _

theorem sparesStart_closePaths (hPairer : ∀ pairs f, SparesStart (pairer pairs f)) (fork : String)
    (paths : List String) :
    ∀ join pairs, SparesStart (closePaths nodes pairer fork join pairs paths) := by
  induction paths with
  | nil => exact fun _ _ => .ok _
  | cons path rest ih =>
      intro join pairs
      rw [closePaths]
      split
      · exact .fault (by simp)
      refine (sparesStart_joinsMet hPairer _ _ _ _ _).bind ?_
      rintro ⟨_ | ⟨found, _ | ⟨second, more⟩⟩, pairs'⟩
      · exact .fault (by simp)
      · cases join with
        | none => exact ih _ _
        | some other =>
            by_cases hSame : found = other
            · simp only [if_pos hSame]
              exact ih _ _
            · simp only [if_neg hSame]
              exact .fault (by simp)
      · exact .fault (by simp)

theorem sparesStart_checkDeclared (f : Fork) (join : Option String) :
    SparesStart (checkDeclared nodes f join) := by
  unfold checkDeclared
  split
  next => exact .ok _
  next declared _ =>
    split
    next => exact fun hFails => by cases hFails
    next =>
      split
      · exact .fault (by simp)
      split
      next =>
        split
        · exact .ok _
        · exact .fault (by simp)
      next => exact .ok _

theorem sparesStart_pairFork (levels : Nat) :
    ∀ resolving pairs f, SparesStart (pairFork nodes levels resolving pairs f) := by
  induction levels with
  | zero => exact fun _ _ _ => .ok _
  | succ levels ih =>
      intro resolving pairs f
      rw [pairFork]
      split
      next => exact .ok _
      next =>
        split
        · exact .ok _
        refine (sparesStart_closePaths (ih _) f.name f.paths _ _).bind fun closed => ?_
        refine (sparesStart_checkDeclared f closed.1).bind fun _ => ?_
        split
        next => exact .ok _
        next => exact .ok _

theorem sparesStart_joinsOfForks (order : List Node) :
    ∀ pairs, SparesStart (joinsOfForks nodes pairs order) := by
  induction order with
  | nil => exact fun _ => .ok _
  | cons node rest ih =>
      intro pairs
      by_cases hFork : ∃ f, node = .fork f
      · obtain ⟨f, rfl⟩ := hFork
        exact (sparesStart_pairFork _ [] pairs f).bind fun paired => ih paired.2
      · rw [joinsOfForks_skip (not_exists.mp hFork)]
        exact ih pairs

theorem sparesStart_checkLinks : SparesStart (checkLinks nodes) := by
  intro hFails
  obtain ⟨node, t, -, hDangling⟩ := checkLinks_eq_error_iff.mp hFails
  cases hDangling

theorem sparesStart_checkAcyclic (start : String) : SparesStart (checkAcyclic nodes start) := by
  intro hFails
  obtain ⟨name, path, hCycle, -⟩ := exists_closesCycle_of_checkAcyclic hFails
  cases hCycle

/-- Linking misses the start exactly when no node has its name. -/
theorem link_eq_noStart_iff :
    link nodes = .error (.malformedNode Node.startName .noStart) ↔
      find? nodes Node.startName = none := by
  unfold link
  cases find? nodes Node.startName with
  | none => simp
  | some node =>
      -- Whatever else linking checks has errors of its own.
      refine ⟨fun hFails => ?_, fun hNone => by cases hNone⟩
      refine absurd hFails (sparesStart_checkLinks.bind fun _ => ?_)
      exact (sparesStart_checkAcyclic _).bind fun _ => sparesStart_joinsOfForks nodes []

end Pairing

/-- The section is a start. -/
def isStart (e : Element) : Bool :=
  e.tag == "start"

/-- The node of the section goes by the name that is kept for the start: the section is a start, or
a node of another kind under this name. -/
def takesStartName (e : Element) : Bool :=
  isStart e || (holdsNode e && Node.attribute? e "name" == some Node.startName)

/-- One section of a document takes the name of the start, and the node read from it is the only one
under this name. -/
structure Bears (root : Element) (nodes : List Node) (e : Element) (node : Node) : Prop where
  taken : root.children.filter takesStartName = [e]
  read : Node.ofElement e = .ok node
  only : nodes.filter (fun other => other.name == Node.startName) = [node]
  found : find? nodes Node.startName = some node

section Bearers

variable {root e : Element} {nodes : List Node} {node : Node}

theorem holdsNode_of_takesStartName (hTakes : takesStartName e = true) : holdsNode e = true := by
  rcases Bool.or_eq_true_iff.mp hTakes with hStart | hOther
  · simp [holdsNode, isIgnored, eq_of_beq hStart]
  · exact (Bool.and_eq_true_iff.mp hOther).1

theorem takesStartName_iff (hHolds : holdsNode e = true) (hRead : Node.ofElement e = .ok node) :
    takesStartName e = true ↔ (node.name == Node.startName) = true := by
  have hName := (Node.declares_of_ofElement hRead).name_eq
  unfold takesStartName isStart
  by_cases hStart : e.tag = "start"
  · rw [if_pos hStart] at hName
    simp [hStart, Option.some.inj hName]
  · rw [if_neg hStart] at hName
    simp [hStart, hHolds, ← hName]

theorem kind_eq_start_iff (hRead : Node.ofElement e = .ok node) :
    node.kind = .start ↔ isStart e = true := by
  have hWord := (Node.declares_of_ofElement hRead).kind_word
  rw [isStart, beq_iff_eq, ← hWord]
  exact NodeKind.word_injective.eq_iff.symm

/-- The sections that take the name give the nodes that have it. -/
theorem forall₂_takesStartName
    (hNodes : (root.children.filter holdsNode).mapM Node.ofElement = .ok nodes) :
    List.Forall₂ (fun e node => Node.ofElement e = .ok node) (root.children.filter takesStartName)
      (nodes.filter fun node => node.name == Node.startName) := by
  have hSections : (root.children.filter holdsNode).filter takesStartName =
      root.children.filter takesStartName := by
    rw [List.filter_filter]
    refine List.filter_congr fun e _ => ?_
    cases hTakes : takesStartName e with
    | false => rfl
    | true => rw [holdsNode_of_takesStartName hTakes]; rfl
  have hRead : List.Forall₂ (fun e node => holdsNode e = true ∧ Node.ofElement e = .ok node)
      (root.children.filter holdsNode) nodes :=
    (List.forall₂_and_left _ _).mpr
      ⟨fun e hMem => (List.mem_filter.mp hMem).2, mapM_eq_ok_iff.mp hNodes⟩
  -- Sections and nodes correspond one by one, so both sides may be filtered.
  rw [← hSections]
  refine List.Forall₂.imp (fun _ _ hPair => hPair.2) (List.rel_filter ?_ hRead)
  intro e node hPair
  exact takesStartName_iff hPair.1 hPair.2

/-- With distinct names, the node found is the only one of its name. -/
theorem filter_name_eq (hDistinct : (nodes.map Node.name).Nodup) {name : String}
    (hFind : find? nodes name = some node) :
    nodes.filter (fun other => other.name == name) = [node] := by
  have hName : node.name = name := name_of_find? hFind
  have hNode := mem_of_find? hFind
  have hNodup : (nodes.filter fun other => other.name == name).Nodup :=
    (List.Nodup.of_map _ hDistinct).filter _
  refine List.perm_singleton.mp
    ((List.perm_ext_iff_of_nodup hNodup (List.nodup_singleton node)).mpr fun other => ?_)
  rw [List.mem_filter, List.mem_singleton, beq_iff_eq]
  constructor
  · rintro ⟨hOther, hSame⟩
    exact List.inj_on_of_nodup_map hDistinct hOther hNode (hSame.trans hName.symm)
  · rintro rfl
    exact ⟨hNode, hName⟩

variable {source : String} {w : Workflow}

/-- In a document that is read one section takes the name of the start. -/
theorem exists_bearer_of_read (hRoot : readDocument source = .ok root)
    (hRead : (Workflow.read source).result = .ok w) : ∃ e node, Bears root w.nodes e node := by
  obtain ⟨hNamed, -, hLink⟩ := linked_of_read hRead
  obtain ⟨⟨node, hFind⟩, -⟩ := link_eq_ok_iff.mp hLink
  obtain ⟨root', -, hRoot', -, hNodes⟩ := holds_of_read hRead
  obtain rfl : root = root' := Except.ok.inj (hRoot.symm.trans hRoot')
  have hOnly := filter_name_eq hNamed.distinct hFind
  have hSections := forall₂_takesStartName hNodes
  rw [hOnly] at hSections
  obtain ⟨e, rest, hNode, hRest, hTaken⟩ := List.forall₂_cons_right_iff.mp hSections
  obtain rfl := List.forall₂_nil_right_iff.mp hRest
  exact ⟨e, node, hTaken, hNode, hOnly, hFind⟩

/-- The starts among the sections are those that take the name as starts. -/
theorem Bears.filter_isStart {nodes : List Node} (hBears : Bears root nodes e node) :
    root.children.filter isStart = if node.kind = .start then [e] else [] := by
  have hTaken : (root.children.filter takesStartName).filter isStart =
      root.children.filter isStart := by
    rw [List.filter_filter]
    refine List.filter_congr fun e _ => ?_
    unfold takesStartName
    cases isStart e <;> rfl
  rw [← hTaken, hBears.taken, List.filter_singleton]
  simp only [kind_eq_start_iff hBears.read]
  cases isStart e <;> rfl

/-- Where the nodes can be read under names of their own, the start is missed exactly when no
section takes its name. -/
theorem read_eq_noStart_iff (hRoot : readDocument source = .ok root) (hHolds : Holds source nodes)
    (hDistinct : (nodes.map Node.name).Nodup) :
    (Workflow.read source).result = .error (.malformedNode Node.startName .noStart) ↔
      root.children.filter takesStartName = [] := by
  obtain ⟨name, defaults, hResult⟩ := exists_result_read_eq hHolds hDistinct
  obtain ⟨root', -, hRoot', -, hNodes⟩ := hHolds
  obtain rfl : root = root' := Except.ok.inj (hRoot.symm.trans hRoot')
  have hSections := forall₂_takesStartName hNodes
  rw [hResult, map_eq_error_iff, link_eq_noStart_iff, find?, List.find?_eq_none,
    ← List.length_eq_zero_iff, hSections.length_eq, List.length_eq_zero_iff, List.filter_eq_nil_iff]

end Bearers

/-- The name of the start is taken once.  In a document that is read one section takes it, a start
or a node of another kind, and its node is the only one under the name; there is no other start.
Where no node of another kind takes the name, that section is the one start, its node is of that
kind, and no other node has the name.  A document whose nodes can be read under names of their own
is refused for the lack of a start exactly when no section takes the name; so it is when there is no
start and no node of another kind takes the name. -/
theorem start_name_exact {source : String} {root : Element}
    (hRoot : readDocument source = .ok root) :
    (∀ w, (read source).result = .ok w → ∃ e node, Bears root w.nodes e node ∧
      root.children.filter isStart = (if node.kind = .start then [e] else []) ∧
      ((∀ other ∈ root.children, takesStartName other = true → isStart other = true) →
        root.children.filter isStart = [e] ∧ node.kind = .start ∧
        ∀ other ∈ w.nodes, other.kind ≠ .start → other.name ≠ Node.startName)) ∧
    ∀ nodes, Holds source nodes → (nodes.map Node.name).Nodup →
      ((read source).result = .error (.malformedNode Node.startName .noStart) ↔
        root.children.filter takesStartName = []) ∧
      (root.children.filter isStart = [] →
        (∀ other ∈ root.children, takesStartName other = true → isStart other = true) →
        (read source).result = .error (.malformedNode Node.startName .noStart)) := by
  refine ⟨fun w hRead => ?_, fun nodes hHolds hDistinct => ?_⟩
  · obtain ⟨e, node, hBears⟩ := exists_bearer_of_read hRoot hRead
    refine ⟨e, node, hBears, hBears.filter_isStart, fun hOthers => ?_⟩
    have hMem : e ∈ root.children.filter takesStartName := hBears.taken ▸ List.mem_cons_self
    have hStart : isStart e = true :=
      hOthers e (List.mem_filter.mp hMem).1 (List.mem_filter.mp hMem).2
    have hKind : node.kind = .start := (kind_eq_start_iff hBears.read).mpr hStart
    refine ⟨by rw [hBears.filter_isStart, if_pos hKind], hKind,
      fun other hOther hDiffers hName => ?_⟩
    have hOnly : other ∈ w.nodes.filter fun other => other.name == Node.startName :=
      List.mem_filter.mpr ⟨hOther, beq_iff_eq.mpr hName⟩
    rw [hBears.only, List.mem_singleton] at hOnly
    exact hDiffers (hOnly ▸ hKind)
  · have hIff := read_eq_noStart_iff hRoot hHolds hDistinct
    refine ⟨hIff, fun hNone hOthers =>
      hIff.mpr (List.filter_eq_nil_iff.mpr fun e hMem hTakes => ?_)⟩
    exact List.filter_eq_nil_iff.mp hNone e hMem (hOthers e hMem hTakes)

namespace NamedStarts

/-- The units of a document with a start that has a name attribute, and names that are nearly that
of the start. -/
def units : List Char :=
  ["<w name='w'>",
    "<kill name='Start'/>",
    "<start name='begin' to=' e '/>",
    "<credentials name='start'/>",
    "<end name='e'/>",
    "</w>"].flatMap String.toList

def workflow : Workflow :=
  ⟨"w", [.kill "Start" "", .start "e", .finish "e"], [], .empty⟩

/-- No node of another kind takes the name of the start. -/
def startsOnly (root : Element) : Bool :=
  root.children.all fun other => !takesStartName other || isStart other

theorem readUnits?_units :
    ((Markup.readUnits? units).map fun root => (startsOnly root, (ofElement root).result)) =
      some (true, .ok workflow) := by
  decide +kernel

end NamedStarts

theorem start_name_exact_named :
    ∃ root e node, readDocument (String.ofList NamedStarts.units) = .ok root ∧
      (read (String.ofList NamedStarts.units)).result = .ok NamedStarts.workflow ∧
      Bears root NamedStarts.workflow.nodes e node ∧ root.children.filter isStart = [e] ∧
      node.kind = .start := by
  obtain ⟨root, hUnits, hMade⟩ := Option.map_eq_some_iff.mp NamedStarts.readUnits?_units
  obtain ⟨hOnly, hMade⟩ := Prod.mk.inj hMade
  have hRead : (read (String.ofList NamedStarts.units)).result = .ok NamedStarts.workflow :=
    read_ofList (by rw [hUnits, Option.map_some, hMade])
  have hRoot := readDocument_ofList hUnits
  obtain ⟨e, node, hBears, -, hStart⟩ := (start_name_exact hRoot).1 _ hRead
  have hOthers : ∀ other ∈ root.children, takesStartName other = true → isStart other = true := by
    intro other hOther hTakes
    have hEach := List.all_eq_true.mp hOnly other hOther
    rwa [hTakes] at hEach
  obtain ⟨hOne, hKind, -⟩ := hStart hOthers
  exact ⟨root, e, node, hRoot, hRead, hBears, hOne, hKind⟩

namespace TakenStart

/-- The units of a document without a start, whose end has the name of one. -/
def units : List Char :=
  ["<w name='w'>", "<end name='start'/>", "</w>"].flatMap String.toList

def workflow : Workflow :=
  ⟨"w", [.finish "start"], [], .empty⟩

theorem readUnits?_units : ((Markup.readUnits? units).map fun root =>
    (root.children.filter isStart, (ofElement root).result)) = some ([], .ok workflow) := by
  decide +kernel

end TakenStart

/-- A document without a start is read when another node has the name of the start. -/
theorem start_name_taken_by_end :
    ∃ root w, readDocument (String.ofList TakenStart.units) = .ok root ∧
      (read (String.ofList TakenStart.units)).result = .ok w ∧
      root.children.filter isStart = [] ∧
      find? w.nodes Node.startName = some (.finish Node.startName) := by
  obtain ⟨root, hUnits, hMade⟩ := Option.map_eq_some_iff.mp TakenStart.readUnits?_units
  obtain ⟨hNone, hMade⟩ := Prod.mk.inj hMade
  refine ⟨root, TakenStart.workflow, readDocument_ofList hUnits, read_ofList ?_, hNone, rfl⟩
  rw [hUnits, Option.map_some, hMade]

end Workflow
end WorkflowDag
