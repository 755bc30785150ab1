import RelQuery.Proofs.Join.Tree
import RelQuery.Proofs.Projection

/-!
# The nodes of a join tree

A join tree has one node for every joined path that the projection keeps, and no other. A path that is left out takes
those that go on from it along, so what the tree contains can be told from the path alone.
-/

namespace RelQuery

open Sql

theorem Projection.excludesPath_of_isPrefix {p : Projection} {path longer : Path} (h : p.excludesPath path = true)
    (hpre : path.segments <+: longer.segments) : p.excludesPath longer = true := by
  obtain ⟨before, segment, after, hsegments, hmark⟩ := excludesPath_iff.mp h
  obtain ⟨more, hmore⟩ := hpre
  refine excludesPath_iff.mpr ⟨before, segment, after ++ more, ?_, hmark⟩
  rw [← hmore, hsegments, List.append_assoc, List.cons_append]

theorem Projection.excludesPath_eq_false_of_isPrefix {p : Projection} {path longer : Path}
    (h : p.excludesPath longer = false) (hpre : path.segments <+: longer.segments) : p.excludesPath path = false :=
  Bool.eq_false_iff.mpr fun hexcluded =>
    Bool.eq_false_iff.mp h (excludesPath_of_isPrefix hexcluded hpre)

mutual

/-- The node and all below it. -/
def JoinNode.subtree : JoinNode → List JoinNode
  | ⟨relation, name, path, target, table, toMany, isPartial, columns, children⟩ =>
    ⟨relation, name, path, target, table, toMany, isPartial, columns, children⟩ :: subtrees children
termination_by structural node => node

def subtrees : List JoinNode → List JoinNode
  | [] => []
  | node :: rest => node.subtree ++ subtrees rest
termination_by structural nodes => nodes

end

/-- All nodes of a tree. -/
def JoinTree.nodes (t : JoinTree) : List JoinNode := subtrees t.children

theorem JoinNode.subtree_eq (node : JoinNode) : node.subtree = node :: subtrees node.children := by
  obtain ⟨relation, name, path, target, table, toMany, isPartial, columns, children⟩ := node
  rfl

theorem subtrees_eq_flatMap (nodes : List JoinNode) : subtrees nodes = nodes.flatMap JoinNode.subtree := by
  induction nodes with
  | nil => rfl
  | cons first rest ih => rw [subtrees, ih, List.flatMap_cons]

theorem mem_subtrees {nodes : List JoinNode} {node : JoinNode} :
    node ∈ subtrees nodes ↔ ∃ above ∈ nodes, node = above ∨ node ∈ subtrees above.children := by
  rw [subtrees_eq_flatMap, List.mem_flatMap]
  simp only [JoinNode.subtree_eq, List.mem_cons]

/-! ### Nodes along paths -/

variable {src : JoinSource} {root : EntityId} {parent : Path} {node : JoinNode} {nodes : List JoinNode}

/-- The path is joined, and the projection keeps it. -/
def JoinSource.Keeps (src : JoinSource) (path : Path) : Prop :=
  ∃ r ∈ src.resolved, r.path = path ∧ src.projection.excludesPath path = false

/-- The node stands for a joined path one relation below another. -/
structure JoinNode.Stands (src : JoinSource) (parent : Path) (node : JoinNode) (r : ResolvedPath) (a : JoinAlias) :
    Prop where
  mem : r ∈ src.resolved
  path : r.path = parent.child node.name
  kept : src.projection.excludesPath r.path = false
  named : src.aliases.get? r.path = some a
  eq : node = src.node r (r.lastHop?.getD default) a.target node.children

/-- The node and all below it stand for joined paths, and those below it for all that the projection keeps, each once. -/
inductive JoinNode.Spans (src : JoinSource) : Path → JoinNode → Prop where
  | intro {parent : Path} {node : JoinNode} (stands : ∃ r a, node.Stands src parent r a)
      (names : (node.children.map (·.name)).Nodup)
      (complete : ∀ name, name ∈ node.children.map (·.name) ↔ src.Keeps (node.path.child name))
      (below : ∀ child ∈ node.children, child.Spans src node.path) : node.Spans src parent

/-- The nodes below a path stand for the joined paths one relation further that the projection keeps, each once. -/
structure NodesSpan (src : JoinSource) (parent : Path) (nodes : List JoinNode) : Prop where
  names : (nodes.map (·.name)).Nodup
  complete : ∀ name, name ∈ nodes.map (·.name) ↔ src.Keeps (parent.child name)
  below : ∀ node ∈ nodes, node.Spans src parent

theorem JoinNode.Stands.node_path {r : ResolvedPath} {a : JoinAlias} (h : node.Stands src parent r a) :
    node.path = r.path := by
  rw [h.eq]
  rfl

/-- What a node holds is what resolving and naming its path give. -/
theorem JoinNode.Stands.holds (hj : JoinedPaths src.schema root src.resolved) {r : ResolvedPath} {a : JoinAlias}
    (h : node.Stands src parent r a) :
    src.schema.resolve root node.path = .ok r ∧ r.lastHop? = some node.relation ∧ node.target = r.target ∧
      src.aliases.get? node.path = some a ∧ node.table = a.target ∧
      node.columns = selectColumns (src.schema.entity node.target) (src.projection.at_ node.path) (some node.table) := by
  have hresolves := hj.resolves r h.mem
  obtain ⟨-, -, id, -, -, hid, -⟩ := hresolves.lastHop (congrArg Path.segments h.path)
  rw [h.node_path, h.eq]
  refine ⟨resolve_eq_ok.mpr ⟨rfl, hresolves⟩, ?_, rfl, h.named, rfl, rfl⟩
  change r.lastHop? = some (r.lastHop?.getD default)
  rw [hid]
  rfl

namespace JoinNode.Spans

theorem stands (h : node.Spans src parent) : ∃ r a, node.Stands src parent r a := by
  obtain ⟨hstands, -⟩ := h
  exact hstands

theorem path (h : node.Spans src parent) : node.path = parent.child node.name := by
  obtain ⟨r, a, hstands⟩ := h.stands
  exact hstands.node_path.trans hstands.path

theorem children (h : node.Spans src parent) : NodesSpan src node.path node.children := by
  obtain ⟨-, names, complete, below⟩ := h
  exact ⟨names, complete, below⟩

end JoinNode.Spans

theorem nodesSpan_of_nodesBelow (hj : JoinedPaths src.schema root src.resolved) {levels : Nat}
    (hlevels : ∀ r ∈ src.resolved, r.path.length ≤ parent.length + levels)
    (h : src.nodesBelow levels parent = .ok nodes) : NodesSpan src parent nodes := by
  induction levels generalizing parent nodes with
  | zero =>
    cases h
    refine ⟨List.nodup_nil, fun name => iff_of_false List.not_mem_nil ?_, fun _ hn => absurd hn List.not_mem_nil⟩
    rintro ⟨r, hr, hpath, -⟩
    have hle := hlevels r hr
    rw [hpath, Path.length_child] at hle
    omega
  | succ levels ih =>
    have hnode : ∀ node ∈ nodes, src.Keeps (parent.child node.name) ∧ node.Spans src parent := by
      intro node hn
      obtain ⟨r, hr, a, children, hnamed, hchildren, rfl⟩ := exists_of_mem_forall₂ (forall₂_of_nodesBelow h) hn
      obtain ⟨hstep, hkept⟩ := List.mem_filter.mp hr
      rw [Bool.not_eq_true'] at hkept
      obtain ⟨hmem, name, hsegments⟩ := segments_of_mem_stepsFrom hstep
      have hname := name_of_resolves (hj.resolves r hmem) hsegments
      have hpath : r.path = parent.child (src.schema.relation (r.lastHop?.getD default)).name := by
        rw [hname]
        exact congrArg Path.mk hsegments
      -- one level is used up, and the paths go one relation less far beyond
      have hdeep : ∀ t ∈ src.resolved, t.path.length ≤ r.path.length + levels := fun t ht => by
        have hle := hlevels t ht
        rw [hpath, Path.length_child]
        omega
      obtain ⟨names, complete, below⟩ := ih hdeep hchildren
      exact ⟨⟨r, hmem, hpath, hpath ▸ hkept⟩, .intro ⟨r, a, hmem, hpath, hkept, hnamed, rfl⟩ names complete below⟩
    refine ⟨nodup_names_of_nodesBelow hj h, fun name => ⟨fun hmem => ?_, ?_⟩, fun node hn => (hnode node hn).2⟩
    · obtain ⟨node, hn, rfl⟩ := List.mem_map.mp hmem
      exact (hnode node hn).1
    · rintro ⟨r, hr, hpath, hkept⟩
      obtain ⟨a, children, -, hname, hn⟩ := exists_node_of_nodesBelow hj h hr hpath (hpath ▸ hkept)
      exact List.mem_map.mpr ⟨_, hn, hname⟩

theorem root_of_tree {t : JoinTree} (h : src.tree root = .ok t) :
    t.root = root ∧ t.columns = selectColumns (src.schema.entity root) src.projection none := by
  obtain ⟨_, -, rfl⟩ := map_eq_ok.mp h
  exact ⟨rfl, rfl⟩

/-- The nodes of a tree stand for the joined paths that the projection keeps. -/
theorem nodesSpan_of_tree (hj : JoinedPaths src.schema root src.resolved) {t : JoinTree} (h : src.tree root = .ok t) :
    NodesSpan src .root t.children := by
  obtain ⟨children, hchildren, rfl⟩ := map_eq_ok.mp h
  refine nodesSpan_of_nodesBelow hj (fun r hr => ?_) hchildren
  have hle := (le_foldl_max (fun r : ResolvedPath => r.path.length) src.resolved 0).2 r hr
  exact Nat.le_trans hle (Nat.le_of_eq (Nat.zero_add _).symm)

/-- With a path, the paths that it begins with are joined and kept. -/
theorem JoinSource.Keeps.of_isPrefix (hj : JoinedPaths src.schema root src.resolved) {path longer : Path}
    (h : src.Keeps longer) (hne : path ≠ .root) (hpre : path.segments <+: longer.segments) : src.Keeps path := by
  obtain ⟨r, hr, rfl, hkept⟩ := h
  obtain ⟨t, ht, hpath⟩ := hj.closed r hr path hne hpre
  exact ⟨t, ht, hpath, Projection.excludesPath_eq_false_of_isPrefix hkept hpre⟩

theorem NodesSpan.nodesContain_iff (hj : JoinedPaths src.schema root src.resolved) {names : List String} :
    ∀ {parent : Path} {nodes : List JoinNode}, NodesSpan src parent nodes → names ≠ [] →
      (nodesContain nodes names = true ↔ src.Keeps ⟨parent.segments ++ names⟩) := by
  induction names with
  | nil => exact fun _ hne => absurd rfl hne
  | cons name rest ih =>
    intro parent nodes h _
    have hlonger : parent.segments ++ name :: rest = (parent.child name).segments ++ rest := by
      simp [Path.child]
    rw [nodesContain, hlonger]
    rcases hfind : nodes.find? (·.name == name) with - | node
    · rw [hfind]
      refine iff_of_false (Bool.eq_false_iff.mp rfl) fun hkeeps => ?_
      have hfirst := hkeeps.of_isPrefix hj (Path.child_ne_root parent name) (List.prefix_append _ _)
      obtain ⟨node, hnode, hname⟩ := List.mem_map.mp ((h.complete name).mpr hfirst)
      exact List.find?_eq_none.mp hfind node hnode (beq_iff_eq.mpr hname)
    · rw [hfind]
      have hnode := List.mem_of_find?_eq_some hfind
      have hfound := List.find?_some hfind
      obtain rfl : node.name = name := eq_of_beq hfound
      have hspans := h.below node hnode
      rw [← hspans.path]
      cases rest with
      | nil =>
        rw [List.append_nil]
        refine iff_of_true rfl ?_
        rw [hspans.path]
        exact (h.complete node.name).mp (List.mem_map_of_mem hnode)
      | cons next rest => exact ih hspans.children (List.cons_ne_nil _ _)

/-- A tree contains the joined paths that the projection keeps. -/
theorem contains_iff_of_tree (hj : JoinedPaths src.schema root src.resolved) {t : JoinTree} (h : src.tree root = .ok t)
    {path : Path} (hne : path ≠ .root) : t.contains path = true ↔ src.Keeps path :=
  (nodesSpan_of_tree hj h).nodesContain_iff hj fun hnil => hne (congrArg Path.mk hnil)

/-! ### Which nodes a tree has -/

theorem JoinNode.Spans.of_mem_subtree (h : node.Spans src parent) :
    ∀ below ∈ node.subtree, node.path.segments <+: below.path.segments ∧ ∃ parent', below.Spans src parent' := by
  induction h with
  | @intro parent node stands names complete below ih =>
    intro m hm
    rw [node.subtree_eq] at hm
    rcases List.mem_cons.mp hm with rfl | hm
    · exact ⟨List.prefix_rfl, parent, .intro stands names complete below⟩
    · rw [subtrees_eq_flatMap] at hm
      obtain ⟨child, hchild, hm⟩ := List.mem_flatMap.mp hm
      obtain ⟨hpre, hspans⟩ := ih child hchild m hm
      rw [(below child hchild).path] at hpre
      exact ⟨(List.prefix_append _ _).trans hpre, hspans⟩

theorem NodesSpan.of_mem (h : NodesSpan src parent nodes) {node : JoinNode} (hnode : node ∈ subtrees nodes) :
    ∃ parent', node.Spans src parent' := by
  rw [subtrees_eq_flatMap] at hnode
  obtain ⟨above, habove, hmem⟩ := List.mem_flatMap.mp hnode
  exact ((h.below above habove).of_mem_subtree node hmem).2

theorem JoinNode.Spans.keeps (h : node.Spans src parent) : src.Keeps node.path := by
  obtain ⟨r, a, hstands⟩ := h.stands
  rw [hstands.node_path]
  exact ⟨r, hstands.mem, rfl, hstands.kept⟩

theorem NodesSpan.exists_node (hj : JoinedPaths src.schema root src.resolved) {names : List String} :
    ∀ {parent : Path} {nodes : List JoinNode}, NodesSpan src parent nodes → names ≠ [] →
      src.Keeps ⟨parent.segments ++ names⟩ → ∃ node ∈ subtrees nodes, node.path = ⟨parent.segments ++ names⟩ := by
  induction names with
  | nil => exact fun _ hne => absurd rfl hne
  | cons name rest ih =>
    intro parent nodes h _ hkeeps
    have hlonger : parent.segments ++ name :: rest = (parent.child name).segments ++ rest := by
      simp [Path.child]
    rw [hlonger] at hkeeps ⊢
    have hfirst := hkeeps.of_isPrefix hj (Path.child_ne_root parent name) (List.prefix_append _ _)
    obtain ⟨node, hnode, rfl⟩ := List.mem_map.mp ((h.complete name).mpr hfirst)
    have hspans := h.below node hnode
    rw [← hspans.path] at hkeeps ⊢
    cases rest with
    | nil => exact ⟨node, mem_subtrees.mpr ⟨node, hnode, .inl rfl⟩, by rw [List.append_nil]⟩
    | cons next rest =>
      obtain ⟨below, hbelow, hpath⟩ := ih hspans.children (List.cons_ne_nil _ _) hkeeps
      exact ⟨below, mem_subtrees.mpr ⟨node, hnode, .inr hbelow⟩, hpath⟩

theorem mem_paths_of_tree (hj : JoinedPaths src.schema root src.resolved) {t : JoinTree} (h : src.tree root = .ok t)
    {path : Path} : path ∈ t.nodes.map (·.path) ↔ src.Keeps path := by
  have hspan := nodesSpan_of_tree hj h
  constructor
  · intro hmem
    obtain ⟨node, hnode, rfl⟩ := List.mem_map.mp hmem
    obtain ⟨parent, hspans⟩ := hspan.of_mem hnode
    exact hspans.keeps
  · intro hkeeps
    have hne : path.segments ≠ [] := fun hnil => by
      obtain ⟨r, hr, hpath, -⟩ := hkeeps
      exact hj.ne_root r hr (hpath.trans (congrArg Path.mk hnil))
    obtain ⟨node, hnode, hsame⟩ := hspan.exists_node hj hne hkeeps
    exact List.mem_map.mpr ⟨node, hnode, hsame⟩

theorem NodesSpan.nodup_of_each (h : NodesSpan src parent nodes)
    (heach : ∀ node ∈ nodes, (node.subtree.map (·.path)).Nodup) : ((subtrees nodes).map (·.path)).Nodup := by
  rw [subtrees_eq_flatMap, List.map_flatMap]
  refine Path.nodup_flatMap_of_names parent h.names (fun node hnode path hpath => ?_) heach
  obtain ⟨m, hm, rfl⟩ := List.mem_map.mp hpath
  rw [← (h.below node hnode).path]
  exact ((h.below node hnode).of_mem_subtree m hm).1

theorem JoinNode.Spans.nodup_subtree (h : node.Spans src parent) : (node.subtree.map (·.path)).Nodup := by
  induction h with
  | @intro parent node stands names complete below ih =>
    have hspans := Spans.intro stands names complete below
    rw [node.subtree_eq, List.map_cons]
    refine List.nodup_cons.mpr ⟨fun hmem => ?_, hspans.children.nodup_of_each ih⟩
    obtain ⟨m, hm, hpath⟩ := List.mem_map.mp hmem
    rw [subtrees_eq_flatMap] at hm
    obtain ⟨child, hchild, hm⟩ := List.mem_flatMap.mp hm
    -- what is below a child goes on from it, and so is longer than the node's own path
    have hle := ((below child hchild).of_mem_subtree m hm).1.length_le
    rw [(below child hchild).path, hpath] at hle
    simp only [Path.child, List.length_append, List.length_singleton] at hle
    omega

theorem exists_stands_of_tree (hj : JoinedPaths src.schema root src.resolved) {t : JoinTree}
    (h : src.tree root = .ok t) (hnode : node ∈ t.nodes) : ∃ parent r a, node.Stands src parent r a := by
  obtain ⟨parent, hspans⟩ := (nodesSpan_of_tree hj h).of_mem hnode
  exact ⟨parent, hspans.stands⟩

theorem nodup_paths_of_tree (hj : JoinedPaths src.schema root src.resolved) {t : JoinTree} (h : src.tree root = .ok t) :
    (t.nodes.map (·.path)).Nodup := by
  have hspan := nodesSpan_of_tree hj h
  exact hspan.nodup_of_each fun node hnode => (hspan.below node hnode).nodup_subtree

/-- The columns of an entity that a projection shows, each selected under its label. -/
def shownItems (table : String) (e : Entity) (p : Projection) (label : String → String) : List SelectItem :=
  (p.visibleColumns e).map fun c => ⟨.col table c.dbName, some (label c.name)⟩

/-- The columns of a node, as they are selected. -/
def JoinNode.ownItems (node : JoinNode) : List SelectItem := columnItems node.table.text node.columns

mutual

theorem JoinNode.items_eq_subtree : ∀ node : JoinNode, node.items = node.subtree.flatMap JoinNode.ownItems
  | ⟨relation, name, path, target, table, toMany, isPartial, columns, children⟩ => by
    rw [JoinNode.items, JoinNode.subtree, List.flatMap_cons, nodesItems_eq_subtrees children]
    rfl
termination_by structural node => node

theorem nodesItems_eq_subtrees : ∀ nodes : List JoinNode, nodesItems nodes = (subtrees nodes).flatMap JoinNode.ownItems
  | [] => rfl
  | node :: rest => by
    rw [nodesItems, subtrees, List.flatMap_append, node.items_eq_subtree, nodesItems_eq_subtrees rest]
termination_by structural nodes => nodes

end

theorem columnItems_root (table : String) (e : Entity) (p : Projection) :
    columnItems table (selectColumns e p none) = shownItems table e p id := by
  unfold columnItems selectColumns shownItems
  rw [List.map_map]
  rfl

theorem columnItems_joined (table : String) (e : Entity) (p : Projection) (a : Alias) :
    columnItems table (selectColumns e p (some a)) = shownItems table e p a.label := by
  unfold columnItems selectColumns shownItems
  rw [List.map_map]
  rfl

/-- What a tree selects: the columns of the root, and then those of all nodes. -/
theorem JoinTree.selectList_eq_nodes (t : JoinTree) (rootTable : String) :
    t.selectList rootTable = columnItems rootTable t.columns ++ t.nodes.flatMap JoinNode.ownItems := by
  rw [selectList, nodesItems_eq_subtrees, nodes]

end RelQuery
