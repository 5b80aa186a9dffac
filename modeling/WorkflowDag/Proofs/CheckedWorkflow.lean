import Mathlib.Data.List.Nodup
import WorkflowDag.Proofs.ForkClosing
import WorkflowDag.Proofs.NodeLinks

/-!
# What a workflow that has been read satisfies

Reading a document refuses what later stages rely on not to happen.  `Checked` collects what is
left: nodes have distinct, nonempty names, transitions out of reachable nodes go up some rank, and
every closed fork leads to its join.  `checked_of_read` proves it of every workflow that reading
returns.
-/

namespace WorkflowDag

/-- An item with a key of its own keeps the keys of a list distinct. -/
theorem nodup_map_concat {α β : Type} {key : α → β} {items : List α} {item : α}
    (hItems : (items.map key).Nodup) (hFresh : ∀ other ∈ items, key other ≠ key item) :
    ((items ++ [item]).map key).Nodup := by
  rw [List.map_append, List.nodup_append]
  refine ⟨hItems, List.nodup_singleton _, ?_⟩
  intro first hFirst last hLast
  obtain ⟨other, hOther, rfl⟩ := List.mem_map.mp hFirst
  rw [List.map_singleton, List.mem_singleton] at hLast
  rw [hLast]
  exact hFresh other hOther

namespace Workflow

/-- Nodes have names of their own. -/
structure Named (nodes : List Node) : Prop where
  distinct : (nodes.map Node.name).Nodup
  nonempty : ∀ node ∈ nodes, node.name ≠ ""

/-- Each node has been read from an element. -/
def FromElements (nodes : List Node) : Prop :=
  ∀ node ∈ nodes, ∃ e, Node.ofElement e = .ok node

/-- What a section that has been added is. -/
theorem Sections.add_cases {s s' : Sections} {e : Element} (hAdd : s.add e = .ok s') :
    (e.tag = "parameters" ∧ s' = { s with defaults := readDefaults e }) ∨
    (e.tag ≠ "parameters" ∧ isIgnored e = true ∧ s' = s) ∨
    (e.tag ≠ "parameters" ∧ isIgnored e = false ∧ ∃ node, Node.ofElement e = .ok node ∧
      find? s.nodes node.name = none ∧ s' = { s with nodes := s.nodes ++ [node] }) := by
  unfold Sections.add at hAdd
  by_cases hParameters : e.tag = "parameters"
  · rw [if_pos hParameters] at hAdd
    cases hAdd
    exact Or.inl ⟨hParameters, rfl⟩
  rw [if_neg hParameters] at hAdd
  by_cases hIgnored : isIgnored e = true
  · rw [if_pos hIgnored] at hAdd
    cases hAdd
    exact Or.inr (Or.inl ⟨hParameters, hIgnored, rfl⟩)
  rw [if_neg hIgnored] at hAdd
  obtain ⟨node, hNode, hAdd⟩ := bind_eq_ok_iff.mp hAdd
  by_cases hKnown : (find? s.nodes node.name).isSome = true
  · rw [if_pos hKnown] at hAdd
    cases hAdd
  · rw [if_neg hKnown] at hAdd
    cases hAdd
    exact Or.inr (Or.inr ⟨hParameters, eq_false_of_ne_true hIgnored, node, hNode,
      Option.not_isSome_iff_eq_none.mp hKnown, rfl⟩)

/-- Adding a section keeps names distinct and nonempty. -/
theorem Sections.add_named {s s' : Sections} {e : Element} (hNamed : Named s.nodes)
    (hAdd : s.add e = .ok s') : Named s'.nodes := by
  rcases Sections.add_cases hAdd with ⟨-, rfl⟩ | ⟨-, -, rfl⟩ | ⟨-, -, node, hNode, hNew, rfl⟩
  · exact hNamed
  · exact hNamed
  constructor
  · apply nodup_map_concat hNamed.distinct
    intro other hOther hSame
    have hFind := find?_name hNamed.distinct hOther
    rw [hSame, hNew] at hFind
    cases hFind
  · intro other hOther
    rcases List.mem_append.mp hOther with hOld | hLast
    · exact hNamed.nonempty other hOld
    · rw [List.mem_singleton.mp hLast]
      exact (Node.declares_of_ofElement hNode).name_ne_empty

/-- Adding a section adds no node but the one read from it. -/
theorem Sections.add_fromElements {s s' : Sections} {e : Element} (hNodes : FromElements s.nodes)
    (hAdd : s.add e = .ok s') : FromElements s'.nodes := by
  rcases Sections.add_cases hAdd with ⟨-, rfl⟩ | ⟨-, -, rfl⟩ | ⟨-, -, node, hNode, -, rfl⟩
  · exact hNodes
  · exact hNodes
  intro other hOther
  rcases List.mem_append.mp hOther with hOld | hLast
  · exact hNodes other hOld
  · rw [List.mem_singleton.mp hLast]
    exact ⟨e, hNode⟩

/-- What adding a section keeps holds of all that has been read. -/
theorem readSections_induction {Kept : Sections → Prop}
    (hAdd : ∀ s s' e, Kept s → s.add e = .ok s' → Kept s') (elements : List Element) :
    ∀ s s' : Sections, Kept s → (readSections s elements).result = .ok s' → Kept s' := by
  induction elements with
  | nil =>
      intro s s' hKept hRead
      cases hRead
      exact hKept
  | cons e rest ih =>
      intro s s' hKept hRead
      rw [readSections, Traced.result_bind] at hRead
      obtain ⟨s1, hFirst, hRead⟩ := bind_eq_ok_iff.mp hRead
      rw [Traced.result_bind] at hRead
      obtain ⟨-, -, hRead⟩ := bind_eq_ok_iff.mp hRead
      exact ih s1 s' (hAdd s s1 e hKept hFirst) hRead

/-- Linking succeeds when all of its checks do. -/
theorem link_eq_ok_iff {nodes : List Node} {pairs : Pairs} :
    link nodes = .ok pairs ↔
      (∃ node, find? nodes Node.startName = some node) ∧ checkLinks nodes = .ok () ∧
        checkAcyclic nodes Node.startName = .ok () ∧ joinsOfForks nodes [] nodes = .ok pairs := by
  unfold link
  cases hStart : find? nodes Node.startName with
  | none => simp
  | some node =>
      simp only [Option.isNone_some, Bool.false_eq_true, if_false, Option.some.injEq, exists_eq',
        true_and]
      constructor
      · intro hLink
        obtain ⟨⟨⟩, hLinks, hLink⟩ := bind_eq_ok_iff.mp hLink
        obtain ⟨⟨⟩, hAcyclic, hJoins⟩ := bind_eq_ok_iff.mp hLink
        exact ⟨hLinks, hAcyclic, hJoins⟩
      · rintro ⟨hLinks, hAcyclic, hJoins⟩
        exact bind_eq_ok_iff.mpr ⟨(), hLinks, bind_eq_ok_iff.mpr ⟨(), hAcyclic, hJoins⟩⟩

/-- A document is read when it has a name and its sections can be read and linked. -/
theorem read_ok_iff {source : String} {w : Workflow} :
    (read source).result = .ok w ↔ ∃ root, readDocument source = .ok root ∧
      readName root = .ok w.name ∧
      (readSections {} root.children).result = .ok ⟨w.nodes, w.defaults⟩ ∧
      link w.nodes = .ok w.closingJoins := by
  simp only [read, ofElement, Traced.result_bind, Traced.result_ofExcept, Traced.result_tell,
    Traced.result_pure, bind_eq_ok_iff]
  constructor
  · rintro ⟨root, hRoot, name, hName, sections, hSections, closingJoins, hLink, ⟨⟩, -, hResult⟩
    cases hResult
    exact ⟨root, hRoot, hName, hSections, hLink⟩
  · rintro ⟨root, hRoot, hName, hSections, hLink⟩
    exact ⟨root, hRoot, _, hName, _, hSections, _, hLink, (), trivial, rfl⟩

/-- A workflow that is read has nodes with names of their own, each read from an element, and they
have been linked. -/
theorem linked_of_read {source : String} {w : Workflow}
    (hRead : (read source).result = .ok w) :
    Named w.nodes ∧ FromElements w.nodes ∧ link w.nodes = .ok w.closingJoins := by
  obtain ⟨root, -, -, hSections, hLink⟩ := read_ok_iff.mp hRead
  have hAdd : ∀ (s s' : Sections) (e : Element), Named s.nodes ∧ FromElements s.nodes →
      s.add e = .ok s' → Named s'.nodes ∧ FromElements s'.nodes :=
    fun _ _ _ hKept hAdd =>
      ⟨Sections.add_named hKept.1 hAdd, Sections.add_fromElements hKept.2 hAdd⟩
  have hNone : ∀ node, node ∉ ({} : Sections).nodes := fun _ => List.not_mem_nil
  have hKept := readSections_induction hAdd root.children {} _
    ⟨⟨List.nodup_nil, fun node hNode => absurd hNode (hNone node)⟩,
      fun node hNode => absurd hNode (hNone node)⟩ hSections
  exact ⟨hKept.1, hKept.2, hLink⟩

/-- What reading promises of the workflow it returns. -/
structure Checked (w : Workflow) : Prop where
  named : Named w.nodes
  ranked : ∃ rank, IsRank w.nodes rank
  nested : Nested w.nodes w.closingJoins
  paths : ∀ f, Node.fork f ∈ w.nodes → ∀ path ∈ f.paths, isJoin w.nodes path = false
  closed : ∀ f, Node.fork f ∈ w.nodes → ∃ join, (f.name, join) ∈ w.closingJoins

theorem checked_of_read {source : String} {w : Workflow}
    (hRead : (read source).result = .ok w) : Checked w := by
  obtain ⟨hNamed, hElements, hLink⟩ := linked_of_read hRead
  obtain ⟨-, -, hAcyclic, hPairs⟩ := link_eq_ok_iff.mp hLink
  obtain ⟨hNested, -, hForks⟩ := joinsOfForks_nested hNamed.distinct w.nodes [] w.closingJoins
    (List.Subset.refl _) .nil hPairs
  refine ⟨hNamed, exists_rank_of_checkAcyclic hAcyclic, hNested,
    fun f hFork => (hForks f hFork).1, fun f hFork => (hForks f hFork).2 ?_⟩
  obtain ⟨e, hNode⟩ := hElements _ hFork
  exact Node.paths_ne_nil_of_ofElement hNode

namespace Checked

variable {w : Workflow}

/-- Every fork is closed by a node that is a join, those off the paths from the start included. -/
theorem exists_join (hChecked : w.Checked) {name : String} {f : Fork}
    (hFind : find? w.nodes name = some (.fork f)) :
    ∃ join joinName behind, closing? w.closingJoins name = some join ∧
      find? w.nodes join = some (.join joinName behind) := by
  obtain ⟨join, hPair⟩ := hChecked.closed f (mem_of_find? hFind)
  have hName : f.name = name := name_of_find? hFind
  obtain ⟨joinName, behind, hJoin⟩ := isJoin_iff.mp (hChecked.nested.joins _ hPair)
  exact ⟨join, joinName, behind, hName ▸ closing?_of_mem hChecked.nested.keys hPair, hJoin⟩

end Checked

/-- A text made of units is read from these.  Taking a long text apart is what costs. -/
theorem readDocument_ofList {units : List Char} {root : Element}
    (hUnits : Markup.readUnits? units = some root) :
    readDocument (String.ofList units) = .ok root := by
  have hDocument : Markup.read? (String.ofList units) = Markup.readUnits? units :=
    congrArg Markup.readUnits? String.toList_ofList
  rw [readDocument, hDocument, hUnits]

theorem read_ofList {units : List Char} {result : Except Error Workflow}
    (hUnits : ((Markup.readUnits? units).map fun root => (ofElement root).result) = some result) :
    (read (String.ofList units)).result = result := by
  obtain ⟨root, hRoot, hRead⟩ := Option.map_eq_some_iff.mp hUnits
  rw [read, Traced.result_bind, Traced.result_ofExcept, readDocument_ofList hRoot]
  exact hRead

end Workflow
end WorkflowDag
