import WorkflowDag.Proofs.ForkPairing

/-!
# Documents whose forks can be paired

Reading a document does more than pairing its forks, but where its nodes can be read and hang
together nothing else can fail (`read_eq_ok_iff`).  What pairing finds is then what reading returns.

Main statement: `fork_pairing_exact`.
-/

namespace WorkflowDag
namespace Workflow

/-- The section makes a node of the workflow. -/
def holdsNode (e : Element) : Bool :=
  e.tag != "parameters" && !isIgnored e

/-- The document has a name, and its nodes can all be read. -/
def Holds (source : String) (nodes : List Node) : Prop :=
  ∃ root name, readDocument source = .ok root ∧ readName root = .ok name ∧
    (root.children.filter holdsNode).mapM Node.ofElement = .ok nodes

theorem holds_ofList {units : List Char} {name : String} {nodes : List Node}
    (hUnits : ((Markup.readUnits? units).map fun root =>
      (readName root, (root.children.filter holdsNode).mapM Node.ofElement)) =
      some (.ok name, .ok nodes)) : Holds (String.ofList units) nodes := by
  obtain ⟨root, hRoot, hRead⟩ := Option.map_eq_some_iff.mp hUnits
  obtain ⟨hName, hNodes⟩ := Prod.mk.inj hRead
  exact ⟨root, name, readDocument_ofList hRoot, hName, hNodes⟩

/-- The nodes hang together: they have names of their own, one of them is the start, transitions
lead to nodes, no cycle can be reached and all forks can. -/
structure Linked (nodes : List Node) : Prop where
  distinct : (nodes.map Node.name).Nodup
  start : ∃ node, find? nodes Node.startName = some node
  links : ∀ node ∈ nodes, ∀ t ∈ node.transitions, ∃ next, find? nodes t.target = some next
  acyclic : ∀ name, Reachable nodes name → ¬Relation.TransGen (Leads nodes) name name
  forks : ∀ f, Node.fork f ∈ nodes → Reachable nodes f.name

section Document

variable {nodes : List Node}

/-- Elements that can all be read are read one by one. -/
theorem map_of_mapM {elements : List Element} (hRead : elements.mapM Node.ofElement = .ok nodes) :
    elements.map Node.ofElement = nodes.map .ok :=
  map_eq_map_of_forall₂ (mapM_eq_ok_iff.mp hRead)

theorem result_forM_tell (events : List Event) : (events.forM Traced.tell).result = .ok () := by
  induction events with
  | nil => rfl
  | cons event rest ih =>
      show (Traced.tell event >>= fun _ => rest.forM Traced.tell).result = _
      rw [Traced.result_bind, Traced.result_tell]
      exact ih

/-- Where the nodes can all be read and have names of their own, reading the sections gives them. -/
theorem readSections_total (elements : List Element) :
    ∀ (s : Sections) (nodes : List Node),
      (elements.filter holdsNode).mapM Node.ofElement = .ok nodes →
      ((s.nodes ++ nodes).map Node.name).Nodup →
      ∃ s', (readSections s elements).result = .ok s' ∧ s'.nodes = s.nodes ++ nodes := by
  induction elements with
  | nil =>
      intro s nodes hRead _
      cases hRead
      exact ⟨s, rfl, (List.append_nil _).symm⟩
  | cons e rest ih =>
      intro s nodes hRead hDistinct
      -- Once the section has been added, the others are read after it.
      have hContinue : ∀ s1 others, s.add e = .ok s1 → s1.nodes ++ others = s.nodes ++ nodes →
          (rest.filter holdsNode).mapM Node.ofElement = .ok others →
          ∃ s', (readSections s (e :: rest)).result = .ok s' ∧ s'.nodes = s.nodes ++ nodes := by
        intro s1 others hAdd hSame hOthers
        obtain ⟨s', hRest, hNodes⟩ := ih s1 others hOthers (hSame.symm ▸ hDistinct)
        refine ⟨s', ?_, hNodes.trans hSame⟩
        rw [readSections, Traced.result_bind, Traced.result_ofExcept, hAdd]
        show ((sectionEvents e).forM Traced.tell >>= fun _ => readSections s1 rest).result = _
        rw [Traced.result_bind, result_forM_tell]
        exact hRest
      by_cases hParameters : e.tag = "parameters"
      · rw [List.filter_cons_of_neg (by simp [holdsNode, hParameters])] at hRead
        exact hContinue { s with defaults := readDefaults e } nodes
          (by rw [Sections.add, if_pos hParameters]) rfl hRead
      by_cases hIgnored : isIgnored e = true
      · rw [List.filter_cons_of_neg (by simp [holdsNode, hIgnored])] at hRead
        exact hContinue s nodes
          (by rw [Sections.add, if_neg hParameters, if_pos hIgnored]) rfl hRead
      rw [List.filter_cons_of_pos (by simp [holdsNode, hParameters, hIgnored]),
        List.mapM_cons] at hRead
      obtain ⟨node, hNode, hRead⟩ := bind_eq_ok_iff.mp hRead
      obtain ⟨others, hOthers, hRead⟩ := bind_eq_ok_iff.mp hRead
      cases hRead
      have hNew : find? s.nodes node.name = none := by
        cases hFind : find? s.nodes node.name with
        | none => rfl
        | some other =>
            rw [List.map_append, List.nodup_append] at hDistinct
            exact absurd (name_of_find? hFind) (hDistinct.2.2 _
              (List.mem_map.mpr ⟨other, mem_of_find? hFind, rfl⟩) _
              (List.mem_map.mpr ⟨node, List.mem_cons_self, rfl⟩))
      refine hContinue { s with nodes := s.nodes ++ [node] } others ?_ ?_ hOthers
      · rw [Sections.add, if_neg hParameters, if_neg hIgnored, hNode]
        simp [bind, Except.bind, hNew, pure, Except.pure]
      · exact List.append_assoc _ _ _

theorem Linked.prepared (hLinked : Linked nodes) {source : String} (hHolds : Holds source nodes) :
    Prepared nodes where
  distinct := hLinked.distinct
  acyclic := hLinked.acyclic
  reachable := hLinked.forks
  paths := by
    obtain ⟨root, name, -, -, hNodes⟩ := hHolds
    intro f hFork
    obtain ⟨e, -, hRead⟩ := exists_mem_left_of_forall₂ (mapM_eq_ok_iff.mp hNodes) hFork
    exact Node.paths_ne_nil_of_ofElement hRead

/-- Where nodes hang together, only pairing can fail. -/
theorem Linked.link_eq (hLinked : Linked nodes) : link nodes = joinsOfForks nodes [] nodes := by
  obtain ⟨node, hStart⟩ := hLinked.start
  rw [link, hStart, checkLinks_eq_ok_iff.mpr hLinked.links,
    checkAcyclic_of_not_cycle hLinked.acyclic]
  rfl

/-- Reading a document whose nodes can be read under names of their own is linking them. -/
theorem exists_result_read_eq {source : String} (hHolds : Holds source nodes)
    (hDistinct : (nodes.map Node.name).Nodup) :
    ∃ name defaults, (read source).result =
      (link nodes).map fun pairs => ⟨name, nodes, pairs, defaults⟩ := by
  obtain ⟨root, name, hRoot, hName, hNodes⟩ := hHolds
  obtain ⟨sections, hSections, hSame⟩ :=
    readSections_total root.children {} nodes hNodes hDistinct
  obtain rfl : sections.nodes = nodes := hSame
  refine ⟨name, sections.defaults, ?_⟩
  simp only [read, ofElement, Traced.result_bind, Traced.result_ofExcept, hRoot, hName, hSections,
    ok_bind, Traced.result_tell, Traced.result_pure]
  cases link sections.nodes with
  | error e => rfl
  | ok pairs => rfl

/-- Reading a document whose nodes hang together is pairing its forks. -/
theorem read_eq_ok_iff {source : String} (hHolds : Holds source nodes) (hLinked : Linked nodes) :
    ∃ name defaults, ∀ w, (read source).result = .ok w ↔
      ∃ pairs, joinsOfForks nodes [] nodes = .ok pairs ∧ w = ⟨name, nodes, pairs, defaults⟩ := by
  obtain ⟨name, defaults, hResult⟩ := exists_result_read_eq hHolds hLinked.distinct
  refine ⟨name, defaults, fun w => ?_⟩
  rw [hResult, hLinked.link_eq, map_eq_ok_iff]
  exact exists_congr fun pairs => and_congr_right fun _ => eq_comm

end Document

/-- Pairing is exact.  A document whose nodes hang together is read exactly when each fork has a
join that all of its paths meet, and only that; the workflow then pairs exactly the forks, each with
this join.  The order in which forks are paired makes no difference to either. -/
theorem fork_pairing_exact {source : String} {nodes : List Node} (hHolds : Holds source nodes)
    (hLinked : Linked nodes) :
    ((∃ w, (read source).result = .ok w) ↔ ∃ closing, ClosesAll nodes closing) ∧
    (∀ w closing, (read source).result = .ok w → ClosesAll nodes closing →
      w.nodes = nodes ∧ PairsForks nodes closing w.closingJoins) ∧
    ∀ order : List Node, order.Perm nodes →
      ((∃ pairs, joinsOfForks nodes [] order = .ok pairs) ↔
        ∃ closing, ClosesAll nodes closing) ∧
      ∀ pairs closing, joinsOfForks nodes [] order = .ok pairs → ClosesAll nodes closing →
        PairsForks nodes closing pairs := by
  have hPrepared := hLinked.prepared hHolds
  obtain ⟨name, defaults, hRead⟩ := read_eq_ok_iff hHolds hLinked
  refine ⟨?_, ?_, ?_⟩
  · rw [← joinsOfForks_eq_ok_iff hPrepared (List.Perm.refl nodes)]
    constructor
    · rintro ⟨w, hOk⟩
      obtain ⟨pairs, hJoins, -⟩ := (hRead w).mp hOk
      exact ⟨pairs, hJoins⟩
    · rintro ⟨pairs, hJoins⟩
      exact ⟨_, (hRead _).mpr ⟨pairs, hJoins, rfl⟩⟩
  · intro w closing hOk hCloses
    obtain ⟨pairs, hJoins, rfl⟩ := (hRead w).mp hOk
    exact ⟨rfl, pairsForks_of_joinsOfForks hPrepared (List.Perm.refl nodes) hCloses hJoins⟩
  · intro order hOrder
    exact ⟨joinsOfForks_eq_ok_iff hPrepared hOrder, fun pairs closing hJoins hCloses =>
      pairsForks_of_joinsOfForks hPrepared hOrder hCloses hJoins⟩

namespace NestedForks

/-- The units of a document with a fork inside of another one, which declares its join. -/
def units : List Char :=
  ["<w name='w'>",
    "<start to='f'/>",
    "<fork name='f' join='j'><path start='g'/><path start='c'/></fork>",
    "<fork name='g'><path start='a'/><path start='b'/></fork>",
    "<action name='a'><x/><ok to='i'/><error to='k'/></action>",
    "<action name='b'><x/><ok to='i'/><error to='k'/></action>",
    "<action name='c'><x/><ok to='j'/><error to='k'/></action>",
    "<join name='i' to='j'/>",
    "<join name='j' to='k'/>",
    "<kill name='k'/>",
    "</w>"].flatMap String.toList

/-- The document with these units. -/
def source : String :=
  String.ofList units

def action (name ok : String) : Node :=
  .action { name, actionType := "x", ok, error := "k" }

/-- The nodes of the document. -/
def nodes : List Node :=
  [.start "f", .fork ⟨"f", ["g", "c"], some "j"⟩, .fork ⟨"g", ["a", "b"], none⟩, action "a" "i",
    action "b" "i", action "c" "j", .join "i" "j", .join "j" "k", .kill "k" ""]

theorem holds_source : Holds source nodes := by
  have hUnits : ((Markup.readUnits? units).map fun root =>
      (readName root, (root.children.filter holdsNode).mapM Node.ofElement)) =
      some (.ok "w", .ok nodes) := by
    decide +kernel
  exact holds_ofList hUnits

theorem linked_nodes : Linked nodes where
  distinct := by decide
  start := ⟨_, rfl⟩
  links := checkLinks_eq_ok_iff.mp (by decide +kernel)
  acyclic := fun _ => not_cycle_of_checkAcyclic (by decide +kernel)
  forks := by
    have hOuter : Reachable nodes "f" := by
      refine (Reachable.start nodes).step ?_
      unfold Leads
      decide
    intro f hFork
    have hCases : f.name = "f" ∨ f.name = "g" := by
      simp only [nodes, action, List.mem_cons, Node.fork.injEq, reduceCtorEq, List.not_mem_nil,
        or_false, false_or] at hFork
      rcases hFork with rfl | rfl
      · exact Or.inl rfl
      · exact Or.inr rfl
    rcases hCases with hName | hName
    · rw [hName]
      exact hOuter
    · rw [hName]
      refine hOuter.step ?_
      unfold Leads
      decide

/-- Pairing finds the joins of both forks, the inner one first. -/
theorem joinsOfForks_nodes : joinsOfForks nodes [] nodes = .ok [("g", "i"), ("f", "j")] := by
  decide +kernel

end NestedForks

theorem fork_pairing_exact_nested :
    Holds NestedForks.source NestedForks.nodes ∧ Linked NestedForks.nodes ∧
    ∃ w closing, (read NestedForks.source).result = .ok w ∧ ClosesAll NestedForks.nodes closing ∧
      PairsForks NestedForks.nodes closing w.closingJoins := by
  have hExact := fork_pairing_exact NestedForks.holds_source NestedForks.linked_nodes
  obtain ⟨hRead, hPairs, hOrder⟩ := hExact
  obtain ⟨closing, hCloses⟩ :=
    (hOrder _ (List.Perm.refl _)).1.mp ⟨_, NestedForks.joinsOfForks_nodes⟩
  obtain ⟨w, hOk⟩ := hRead.mpr ⟨closing, hCloses⟩
  exact ⟨NestedForks.holds_source, NestedForks.linked_nodes, w, closing, hOk, hCloses,
    (hPairs w closing hOk hCloses).2⟩

end Workflow
end WorkflowDag
