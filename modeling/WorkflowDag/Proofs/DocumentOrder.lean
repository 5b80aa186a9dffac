import WorkflowDag.Proofs.ParallelWalks
import WorkflowDag.Proofs.PairedDocument

/-!
# The order of the nodes of a document

Nodes are looked up by their names, which are distinct, so a document whose elements stand in
another order has the same graph of nodes.  Only pairing goes through the nodes in their order.  A
fork that cannot be reached may lie on cycles, and then its join may depend on the order.  The joins
of the forks that a walk meets do not.

Main statement: `node_order_irrelevant`.
-/

namespace WorkflowDag
namespace Workflow

/-- The section holds the defaults of parameters. -/
def isParameters (e : Element) : Bool :=
  e.tag == "parameters"

/-- The roots have the same attributes and parameter sections, and their other children may stand in
another order. -/
structure Reordered (root root' : Element) : Prop where
  attributes : ∀ key, root.attributes.get? key = root'.attributes.get? key
  parameters : root.children.filter isParameters = root'.children.filter isParameters
  others : (root.children.filter fun e => !isParameters e).Perm
    (root'.children.filter fun e => !isParameters e)

section Sections

/-- Sections that have been read give the nodes of those that hold one, in their order, and the
defaults of the last parameter section. -/
theorem sections_of_readSections (elements : List Element) :
    ∀ s s' : Sections, (readSections s elements).result = .ok s' →
      ∃ nodes, (elements.filter holdsNode).mapM Node.ofElement = .ok nodes ∧
        s'.nodes = s.nodes ++ nodes ∧
        s'.defaults =
          (elements.filter isParameters).foldl (fun _ e => readDefaults e) s.defaults := by
  induction elements with
  | nil =>
      intro s s' hRead
      cases hRead
      exact ⟨[], rfl, (List.append_nil _).symm, rfl⟩
  | cons e rest ih =>
      intro s s' hRead
      rw [readSections, Traced.result_bind] at hRead
      obtain ⟨s1, hAdd, hRead⟩ := bind_eq_ok_iff.mp hRead
      rw [Traced.result_bind] at hRead
      obtain ⟨-, -, hRead⟩ := bind_eq_ok_iff.mp hRead
      obtain ⟨nodes, hNodes, hSame, hDefaults⟩ := ih s1 s' hRead
      rcases Sections.add_cases hAdd with ⟨hParameters, rfl⟩ | ⟨hOther, hIgnored, rfl⟩ |
        ⟨hOther, hHeeded, node, hNode, -, rfl⟩
      · rw [List.filter_cons_of_neg (by simp [holdsNode, hParameters]),
          List.filter_cons_of_pos (by simp [isParameters, hParameters])]
        exact ⟨nodes, hNodes, hSame, hDefaults⟩
      · rw [List.filter_cons_of_neg (by simp [holdsNode, hIgnored]),
          List.filter_cons_of_neg (by simp [isParameters, hOther])]
        exact ⟨nodes, hNodes, hSame, hDefaults⟩
      · rw [List.filter_cons_of_pos (by simp [holdsNode, hOther, hHeeded]),
          List.filter_cons_of_neg (by simp [isParameters, hOther]), List.mapM_cons, hNode, hNodes]
        exact ⟨node :: nodes, rfl, hSame.trans (List.append_assoc _ _ _), hDefaults⟩

/-- A document that is read holds the nodes of its workflow, in their order. -/
theorem holds_of_read {source : String} {w : Workflow} (hRead : (read source).result = .ok w) :
    Holds source w.nodes := by
  obtain ⟨root, hRoot, hName, hSections, -⟩ := read_ok_iff.mp hRead
  obtain ⟨nodes, hNodes, hSame, -⟩ := sections_of_readSections root.children {} _ hSections
  obtain rfl : w.nodes = nodes := hSame
  exact ⟨root, w.name, hRoot, hName, hNodes⟩

/-- Elements in another order give the nodes in another order. -/
theorem perm_of_mapM {elements elements' : List Element} {nodes nodes' : List Node}
    (hPerm : elements.Perm elements') (hRead : elements.mapM Node.ofElement = .ok nodes)
    (hRead' : elements'.mapM Node.ofElement = .ok nodes') : nodes.Perm nodes' := by
  have hResults := hPerm.map Node.ofElement
  rw [map_of_mapM hRead, map_of_mapM hRead'] at hResults
  exact (List.map_perm_map_iff fun _ _ => Except.ok.inj).mp hResults

end Sections

section Lookup

variable {nodes nodes' : List Node}

/-- Nodes with distinct names are found in whatever order they stand. -/
theorem find?_eq_of_perm (hDistinct : (nodes.map Node.name).Nodup) (hPerm : nodes.Perm nodes') :
    find? nodes = find? nodes' := by
  have hDistinct' : (nodes'.map Node.name).Nodup := (hPerm.map Node.name).nodup_iff.mp hDistinct
  funext name
  refine Option.ext fun node => ?_
  constructor
  · intro hFind
    rw [← name_of_find? hFind]
    exact find?_name hDistinct' (hPerm.mem_iff.mp (mem_of_find? hFind))
  · intro hFind
    rw [← name_of_find? hFind]
    exact find?_name hDistinct (hPerm.mem_iff.mpr (mem_of_find? hFind))

theorem leads_congr (hSame : find? nodes = find? nodes') : Leads nodes = Leads nodes' := by
  funext name target
  unfold Leads targets
  rw [hSame]

theorem isJoin_congr (hSame : find? nodes = find? nodes') : isJoin nodes = isJoin nodes' := by
  funext name
  unfold isJoin
  rw [hSame]

theorem Follows.congr (hSame : find? nodes = find? nodes') {closing : String → String}
    {name next : String} (hFollows : Follows nodes closing name next) :
    Follows nodes' closing name next := by
  cases hFollows with
  | fork hFind hJoin => exact .fork (hSame ▸ hFind) (hSame ▸ hJoin)
  | other hFind hJoin hFork hTarget => exact .other (hSame ▸ hFind) hJoin hFork hTarget

/-- Which joins close forks is a matter of looking nodes up. -/
theorem Closes.congr (hSame : find? nodes = find? nodes') {closing : String → String} {f : Fork}
    (hCloses : Closes nodes closing f) : Closes nodes' closing f := by
  have hFollows : Follows nodes closing = Follows nodes' closing := by
    funext name next
    exact propext ⟨Follows.congr hSame, Follows.congr hSame.symm⟩
  have hMeets : Meets nodes closing = Meets nodes' closing := by
    unfold Meets
    rw [hFollows, isJoin_congr hSame]
  exact ⟨isJoin_congr hSame ▸ hCloses.join, isJoin_congr hSame ▸ hCloses.paths,
    hMeets ▸ hCloses.meets, hCloses.declared⟩

end Lookup

/-- Workflows that differ in the order of their nodes and in the joins of forks that cannot be
reached. -/
structure Equivalent (w w' : Workflow) : Prop where
  name : w.name = w'.name
  size : w.nodes.length = w'.nodes.length
  find? : Workflow.find? w.nodes = Workflow.find? w'.nodes
  closing? : ∀ name, Reachable w.nodes name →
    Workflow.closing? w.closingJoins name = Workflow.closing? w'.closingJoins name
  defaults : w.defaults = w'.defaults

/-- Only forks are closed. -/
theorem Nested.closing?_eq_none {nodes : List Node} {pairs : Pairs} {name : String}
    (hNested : Nested nodes pairs) (hOther : ∀ f, find? nodes name ≠ some (.fork f)) :
    closing? pairs name = none := by
  cases hClosing : closing? pairs name with
  | none => rfl
  | some join =>
      obtain ⟨f, hFind, -⟩ := hNested.starts _ (closing?_mem hClosing)
      exact absurd hFind (hOther f)

section Reading

variable {source source' : String} {w w' : Workflow}

/-- Where nodes are found alike, the forks that can be reached have the same joins. -/
theorem closing?_eq_of_find?_eq (hRead : (read source).result = .ok w)
    (hRead' : (read source').result = .ok w') (hSame : find? w.nodes = find? w'.nodes)
    {name : String} (hReachable : Reachable w.nodes name) :
    closing? w.closingJoins name = closing? w'.closingJoins name := by
  have hChecked := checked_of_read hRead
  have hChecked' := checked_of_read hRead'
  by_cases hFork : ∃ f, find? w.nodes name = some (.fork f)
  · obtain ⟨f, hFind⟩ := hFork
    obtain rfl : f.name = name := name_of_find? hFind
    -- The joins of the second document close the forks of the first one as well.
    have hCloses' : ClosesReachable w.nodes (closingOf w'.closingJoins) := by
      intro g hFindG hReachableG
      have hReachable' : Reachable w'.nodes g.name := by
        unfold Reachable
        rw [← leads_congr hSame]
        exact hReachableG
      exact (closesReachable_of_read hRead' g (hSame ▸ hFindG) hReachable').congr hSame.symm
    obtain ⟨hClosing, -⟩ := closing_unique (pairable_of_read hRead) (closesReachable_of_read hRead)
      hCloses' _ [] f (.outermost w.nodes f.name) hFind hReachable
    obtain ⟨join, _, _, hJoin, -⟩ := hChecked.exists_join hFind
    obtain ⟨join', _, _, hJoin', -⟩ := hChecked'.exists_join (hSame ▸ hFind)
    unfold closingOf at hClosing
    rw [hJoin, hJoin'] at hClosing ⊢
    exact congrArg some hClosing
  · have hOther : ∀ f, find? w.nodes name ≠ some (.fork f) := not_exists.mp hFork
    rw [hChecked.nested.closing?_eq_none hOther,
      hChecked'.nested.closing?_eq_none fun f => hSame ▸ hOther f]

theorem readName_eq_ok_iff {root : Element} {name : String} :
    readName root = .ok name ↔
      (root.attributes.get? "name").map Text.trim = some name ∧ name ≠ "" := by
  unfold readName
  cases (root.attributes.get? "name").map Text.trim with
  | none => simp
  | some text =>
      by_cases hEmpty : text = ""
      · simp only [if_pos hEmpty]
        constructor
        · intro hName
          cases hName
        · rintro ⟨hName, hNonempty⟩
          cases hName
          exact absurd hEmpty hNonempty
      · simp only [if_neg hEmpty]
        constructor
        · intro hName
          cases hName
          exact ⟨rfl, hEmpty⟩
        · rintro ⟨hName, -⟩
          cases hName
          rfl

theorem Reordered.holdsNode {root root' : Element} (hReordered : Reordered root root') :
    (root.children.filter holdsNode).Perm (root'.children.filter holdsNode) := by
  have hNodes := hReordered.others.filter fun e => !isIgnored e
  rw [List.filter_filter, List.filter_filter] at hNodes
  have hBoth : (fun e => !isIgnored e && !isParameters e) = Workflow.holdsNode := by
    funext e
    exact Bool.and_comm _ _
  rwa [hBoth] at hNodes

/-- Documents that differ in the order of their nodes give equivalent workflows. -/
theorem equivalent_of_reordered {root root' : Element} (hRoot : readDocument source = .ok root)
    (hRoot' : readDocument source' = .ok root') (hReordered : Reordered root root')
    (hRead : (read source).result = .ok w) (hRead' : (read source').result = .ok w') :
    Equivalent w w' := by
  obtain ⟨_, hDocument, hName, hSections, -⟩ := read_ok_iff.mp hRead
  cases hRoot.symm.trans hDocument
  obtain ⟨_, hDocument', hName', hSections', -⟩ := read_ok_iff.mp hRead'
  cases hRoot'.symm.trans hDocument'
  obtain ⟨nodes, hNodes, hAll, hDefaults⟩ := sections_of_readSections _ _ _ hSections
  obtain ⟨nodes', hNodes', hAll', hDefaults'⟩ := sections_of_readSections _ _ _ hSections'
  obtain rfl : w.nodes = nodes := hAll
  obtain rfl : w'.nodes = nodes' := hAll'
  have hPerm : w.nodes.Perm w'.nodes := perm_of_mapM hReordered.holdsNode hNodes hNodes'
  have hFind := find?_eq_of_perm (pairable_of_read hRead).distinct hPerm
  refine ⟨?_, hPerm.length_eq, hFind, fun _ => closing?_eq_of_find?_eq hRead hRead' hFind, ?_⟩
  · have hOwn := (readName_eq_ok_iff.mp hName).1
    rw [hReordered.attributes, (readName_eq_ok_iff.mp hName').1] at hOwn
    exact (Option.some.inj hOwn).symm
  · rw [hReordered.parameters] at hDefaults
    exact hDefaults.trans hDefaults'.symm

/-- Equivalent workflows make the same graph of tasks, or fail with the same error. -/
theorem Equivalent.ofWorkflow_eq (hEquivalent : Equivalent w w') (hChecked : Checked w)
    (options : TaskOptions) :
    (TaskGraph.ofWorkflow w options).result = (TaskGraph.ofWorkflow w' options).result := by
  have hScope : Walk.scopeOf w options = Walk.scopeOf w' options := by
    unfold Walk.scopeOf
    rw [hEquivalent.defaults, hEquivalent.name]
  have hParallel : Walk.Parallel w w' options options (Walk.scopeOf w options)
      (Walk.scopeOf w' options) (Reachable w.nodes) (fun _ => False) Eq :=
    { find? := fun _ => congrFun hEquivalent.find? _
      closing? := fun hReachable _ => hEquivalent.closing? _ hReachable
      target := Reachable.step
      join := fun hReachable _ hClosing =>
        hReachable.trans (hChecked.nested.leads _ (closing?_mem hClosing))
      body := fun _ _ _ => .of_eq (by rw [hScope])
      decision := fun _ _ => .of_eq (by rw [hScope])
      named := fun hSame => by rw [hSame] }
  rcases (Walk.ofWorkflow_alike hParallel (.start w.nodes) hEquivalent.size).failed_or_returned with
    ⟨e, hFirst, hSecond⟩ | ⟨g, g', hFirst, hSecond, hGraph, hGraph', hDecisions⟩
  · rw [hFirst, hSecond]
  · rw [List.forall₂_eq_eq_eq] at hDecisions
    rw [hFirst, hSecond, hGraph', ← hDecisions, ← hScope, ← hEquivalent.name, ← hGraph]

end Reading

end Workflow

open Workflow in
/-- The order of the nodes of a document does not matter.  Two documents that are read and differ in
this order have the same joins on all forks that can be reached, and whatever the options are they
give the same graph of tasks and the same text, or fail with the same error. -/
theorem node_order_irrelevant {source source' : String} {root root' : Element} {w w' : Workflow}
    (hRoot : readDocument source = .ok root) (hRoot' : readDocument source' = .ok root')
    (hReordered : Reordered root root') (hRead : (read source).result = .ok w)
    (hRead' : (read source').result = .ok w') :
    (∀ name, (Reachable w.nodes name ↔ Reachable w'.nodes name) ∧
      (Reachable w.nodes name → closing? w.closingJoins name = closing? w'.closingJoins name)) ∧
    (∀ options, (TaskGraph.ofWorkflow w options).result =
      (TaskGraph.ofWorkflow w' options).result) ∧
    ∀ options, (convert source options).result.map (fun c => (c.graph, c.text)) =
      (convert source' options).result.map fun c => (c.graph, c.text) := by
  have hEquivalent := equivalent_of_reordered hRoot hRoot' hReordered hRead hRead'
  have hGraphs := hEquivalent.ofWorkflow_eq (checked_of_read hRead)
  refine ⟨fun name => ⟨?_, hEquivalent.closing? name⟩, hGraphs, ?_⟩
  · unfold Reachable
    rw [leads_congr hEquivalent.find?]
  · intro options
    rw [convert_of_read options hRead, convert_of_read options hRead', hGraphs]
    cases (TaskGraph.ofWorkflow w' options.transform).result with
    | error e => rfl
    | ok g =>
        rw [ok_bind, ok_bind]
        cases (g.emit options.dag).result with
        | error e => rfl
        | ok text => rfl

namespace UnreachedForks

open Workflow

mutual

/-- The units of an element and of all that is below it. -/
def written : Element → List Char
  | ⟨tag, attributes, text, children⟩ =>
    "<".toList ++ tag.toList ++
      attributes.entries.flatMap (fun entry =>
        " ".toList ++ entry.1.toList ++ "='".toList ++ entry.2.toList ++ "'".toList) ++
      ">".toList ++ text.toList ++ writtenAll children ++
      "</".toList ++ tag.toList ++ ">".toList

/-- The units of elements that follow each other. -/
def writtenAll : List Element → List Char
  | [] => []
  | e :: rest => written e ++ writtenAll rest

end

def leaf (tag : String) (attributes : List (String × String)) : Element :=
  { tag, attributes := ⟨attributes⟩ }

def fork (name first second : String) : Element :=
  { leaf "fork" [("name", name)] with
    children := [leaf "path" [("start", first)], leaf "path" [("start", second)]] }

def join (name target : String) : Element :=
  leaf "join" [("name", name), ("to", target)]

def action (name ok : String) : Element :=
  { leaf "action" [("name", name)] with
    children := [leaf "fs" [], leaf "ok" [("to", ok)], leaf "error" [("to", "k")]] }

def decision (name first other : String) : Element :=
  { leaf "decision" [("name", name)] with
    children := [{ leaf "switch" [] with
      children := [{ leaf "case" [("to", first)] with text := "true" },
        leaf "default" [("to", other)]] }] }

def parameter (name value : String) : Element :=
  { leaf "parameters" [] with
    children := [{ leaf "property" [] with
      children :=
        [{ leaf "name" [] with text := name }, { leaf "value" [] with text := value }] }] }

/-- The sections of a document.  Its forks `t`, `u` and `v` are not reached and lie on cycles, and
which join closes `u` depends on whether `t` or `v` is paired first. -/
def sections : List Element :=
  [leaf "start" [("to", "f")], parameter "n" "v", fork "f" "a" "b", action "a" "j", action "b" "j",
    join "j" "e", leaf "end" [("name", "e")], leaf "kill" [("name", "k")],
    fork "t" "t1" "t2", action "t1" "tj", decision "t2" "tj" "u", join "tj" "uv",
    fork "u" "u1" "u2", action "u1" "u2", decision "u2" "t" "v", join "ut" "tj", join "uv" "vj",
    fork "v" "v1" "v2", action "v1" "vj", decision "v2" "vj" "u", join "vj" "ut"]

/-- The root of a document with sections in the given order. -/
def rootOf (order : List Element) : Element :=
  { leaf "w" [("name", "w")] with children := order }

/-- The document with sections in the given order. -/
def sourceOf (order : List Element) : String :=
  String.ofList (written (rootOf order))

theorem readUnits?_sections :
    Markup.readUnits? (written (rootOf sections)) = some (rootOf sections) := by
  decide +kernel

theorem readUnits?_reverse :
    Markup.readUnits? (written (rootOf sections.reverse)) = some (rootOf sections.reverse) := by
  decide +kernel

theorem ofElement_sections : ((ofElement (rootOf sections)).result.map fun w =>
    closing? w.closingJoins "u") = .ok (some "ut") := by
  decide +kernel

theorem ofElement_reverse : ((ofElement (rootOf sections.reverse)).result.map fun w =>
    closing? w.closingJoins "u") = .ok (some "uv") := by
  decide +kernel

theorem reordered_reverse : Reordered (rootOf sections) (rootOf sections.reverse) where
  attributes := fun _ => rfl
  parameters := by decide +kernel
  others := (List.reverse_perm sections).symm.filter _

/-- What has been written is read. -/
theorem exists_read {order : List Element} {join : Option String}
    (hUnits : Markup.readUnits? (written (rootOf order)) = some (rootOf order))
    (hMade : ((ofElement (rootOf order)).result.map fun w => closing? w.closingJoins "u") =
      .ok join) :
    readDocument (sourceOf order) = .ok (rootOf order) ∧
      ∃ w, (read (sourceOf order)).result = .ok w ∧ closing? w.closingJoins "u" = join := by
  obtain ⟨w, hWorkflow, hJoin⟩ := map_eq_ok_iff.mp hMade
  refine ⟨readDocument_ofList hUnits, w, read_ofList ?_, hJoin⟩
  rw [hUnits, Option.map_some, hWorkflow]

end UnreachedForks

open UnreachedForks Workflow in
theorem node_order_irrelevant_reversed :
    ∃ w w', readDocument (sourceOf sections) = .ok (rootOf sections) ∧
      readDocument (sourceOf sections.reverse) = .ok (rootOf sections.reverse) ∧
      Reordered (rootOf sections) (rootOf sections.reverse) ∧
      (Workflow.read (sourceOf sections)).result = .ok w ∧
      (Workflow.read (sourceOf sections.reverse)).result = .ok w' ∧
      closing? w.closingJoins "u" ≠ closing? w'.closingJoins "u" ∧
      (∀ name, Reachable w.nodes name →
        closing? w.closingJoins name = closing? w'.closingJoins name) ∧
      ∀ options, (TaskGraph.ofWorkflow w options).result =
        (TaskGraph.ofWorkflow w' options).result := by
  obtain ⟨hRoot, w, hRead, hJoin⟩ := exists_read readUnits?_sections ofElement_sections
  obtain ⟨hRoot', w', hRead', hJoin'⟩ := exists_read readUnits?_reverse ofElement_reverse
  obtain ⟨hJoins, hGraphs, -⟩ :=
    node_order_irrelevant hRoot hRoot' reordered_reverse hRead hRead'
  refine ⟨w, w', hRoot, hRoot', reordered_reverse, hRead, hRead', ?_, fun name => (hJoins name).2,
    hGraphs⟩
  rw [hJoin, hJoin']
  decide

end WorkflowDag
