import RelQuery.Prefetch.Plan
import RelQuery.Proofs.Join.JoinSet
import RelQuery.Proofs.Projection
import RelQuery.Proofs.Request

/-!
# Plans of follow-up statements

The nodes of a prefetch plan are those that the paths to load go through, each once. Whether a node has a statement of
its own, and what that selects, is read off the main statement.
-/

namespace RelQuery

variable {s : Schema} {tree : JoinTree} {projection : Projection} {paths : List Path}

/-- The node follows the relation of its name from the entity at the path before it. -/
structure PrefetchNode.Follows (s : Schema) (tree : JoinTree) (projection : Projection) (parent : Path) (id : EntityId)
    (node : PrefetchNode) : Prop where
  path : node.path = parent.child node.name
  found : s.findRelation? id node.name = some node.relation
  joined : node.isJoined = tree.contains node.path
  shows : node.projection = projection.at_ node.path

/-- The node and all below it follow relations, and those below it are the ones that paths go on to, each once. -/
inductive PrefetchNode.Covers (s : Schema) (tree : JoinTree) (projection : Projection) (paths : List Path) :
    Path → EntityId → PrefetchNode → Prop where
  | intro {parent : Path} {id : EntityId} {node : PrefetchNode} (follows : node.Follows s tree projection parent id)
      (names : (node.children.map (·.name)).Nodup)
      (complete : ∀ name, name ∈ node.children.map (·.name) ↔ goThrough paths (node.path.child name) = true)
      (below : ∀ child ∈ node.children, child.Covers s tree projection paths node.path (s.relation node.relation).target) :
      node.Covers s tree projection paths parent id

/-- The nodes below a path are those that paths go on to, each once. -/
structure NodesCover (s : Schema) (tree : JoinTree) (projection : Projection) (paths : List Path) (parent : Path)
    (id : EntityId) (nodes : List PrefetchNode) : Prop where
  names : (nodes.map (·.name)).Nodup
  complete : ∀ name, name ∈ nodes.map (·.name) ↔ goThrough paths (parent.child name) = true
  below : ∀ node ∈ nodes, node.Covers s tree projection paths parent id

namespace PrefetchNode.Covers

variable {parent : Path} {id : EntityId} {node : PrefetchNode}

theorem follows (h : node.Covers s tree projection paths parent id) : node.Follows s tree projection parent id := by
  obtain ⟨hfollows, -⟩ := h
  exact hfollows

theorem children (h : node.Covers s tree projection paths parent id) :
    NodesCover s tree projection paths node.path (s.relation node.relation).target node.children := by
  obtain ⟨-, names, complete, below⟩ := h
  exact ⟨names, complete, below⟩

/-- Only the paths that go on from a node matter to it. -/
theorem congr {paths' : List Path} (h : node.Covers s tree projection paths parent id)
    (hsame : ∀ path : Path, node.path.segments <+: path.segments → goThrough paths' path = goThrough paths path) :
    node.Covers s tree projection paths' parent id := by
  induction h with
  | intro follows names complete below ih =>
    refine .intro follows names (fun name => ?_) fun child hchild => ih child hchild fun q hq => hsame q ?_
    · rw [hsame (Path.child _ name) (List.prefix_append _ _)]
      exact complete name
    · rw [(below child hchild).follows.path] at hq
      exact (List.prefix_append _ _).trans hq

end PrefetchNode.Covers

theorem NodesCover.congr {paths' : List Path} {parent : Path} {id : EntityId} {nodes : List PrefetchNode}
    (h : NodesCover s tree projection paths parent id nodes)
    (hsame : ∀ name (path : Path), (parent.child name).segments <+: path.segments →
      goThrough paths' path = goThrough paths path) : NodesCover s tree projection paths' parent id nodes := by
  refine ⟨h.names, fun name => ?_, fun node hn => ?_⟩
  · rw [hsame name _ List.prefix_rfl]
    exact h.complete name
  · have hcovers := h.below node hn
    exact hcovers.congr fun path hpre => hsame node.name path (hcovers.follows.path ▸ hpre)

/-- The steps of names and relations after a path. -/
def stepsAfter (parent : Path) : List String → List RelationId → List (Path × RelationId)
  | name :: names, id :: ids => (parent.child name, id) :: stepsAfter (parent.child name) names ids
  | _, _ => []

theorem zip_prefixes (parent : Path) (names : List String) (ids : List RelationId) :
    ((List.range names.length).map fun n => (⟨parent.segments ++ names.take (n + 1)⟩ : Path)).zip ids =
      stepsAfter parent names ids := by
  induction names generalizing parent ids with
  | nil => rfl
  | cons name rest ih =>
    cases ids with
    | nil => rw [List.zip_nil_right, stepsAfter]; rintro _ _ _ _ _ ⟨⟩
    | cons id ids =>
      rw [stepsAfter, ← ih (parent.child name), List.length_cons, List.range_succ_eq_map, List.map_cons, List.map_map,
        List.zip_cons_cons]
      simp [Path.child, Function.comp_def]

theorem steps_eq (r : ResolvedPath) : r.steps = stepsAfter .root r.path.segments r.hops :=
  zip_prefixes .root r.path.segments r.hops

theorem goThrough_concat (paths : List Path) (q path : Path) :
    goThrough (paths ++ [q]) path = (goThrough paths path || path.isPrefixOf q) := by
  simp [goThrough]

/-! ### Adding the nodes of a path -/

theorem eq_of_goes_on {parent path : Path} {name other : String} {rest : List String}
    (hpre : (parent.child other).segments <+: path.segments)
    (hthrough : path.isPrefixOf ⟨parent.segments ++ name :: rest⟩ = true) : other = name := by
  have hboth : parent.segments ++ [other] <+: parent.segments ++ name :: rest :=
    hpre.trans (Path.isPrefixOf_iff.mp hthrough)
  exact (List.cons_prefix_cons.mp ((List.prefix_append_right_inj _).mp hboth)).1

theorem goThrough_ancestor {path other : Path} (h : goThrough paths other = true)
    (hpre : path.segments <+: other.segments) : goThrough paths path = true := by
  obtain ⟨q, hq, hother⟩ := goThrough_iff.mp h
  exact goThrough_iff.mpr ⟨q, hq, hpre.trans hother⟩

/-- Below a path that no path goes through there is nothing to load. -/
theorem nodesCover_nil {parent : Path} (h : ∀ name, goThrough paths (parent.child name) = false) (id : EntityId) :
    NodesCover s tree projection paths parent id [] :=
  ⟨List.nodup_nil, fun name => by simp [h name], fun _ hn => absurd hn List.not_mem_nil⟩

theorem map_name_ite (nodes : List PrefetchNode) (name : String) (below : PrefetchNode → List PrefetchNode) :
    (nodes.map fun n => if n.name == name then { n with children := below n } else n).map (·.name) =
      nodes.map (·.name) := by
  rw [List.map_map]
  refine List.map_congr_left fun n _ => ?_
  rw [Function.comp_apply]
  split <;> rfl

theorem goThrough_concat_child (paths : List Path) (parent : Path) (name : String) (rest : List String) (other : String) :
    goThrough (paths ++ [⟨parent.segments ++ name :: rest⟩]) (parent.child other) = true ↔
      goThrough paths (parent.child other) = true ∨ other = name := by
  rw [goThrough_concat, Bool.or_eq_true]
  refine or_congr_right ⟨eq_of_goes_on List.prefix_rfl, ?_⟩
  rintro rfl
  exact Path.isPrefixOf_iff.mpr (by simp [Path.child])

section

variable {parent : Path} {id : EntityId} {nodes : List PrefetchNode} {name : String} {rest : List String}

/-- A path that goes on to another node does not matter to a node. -/
theorem PrefetchNode.Covers.concat {node : PrefetchNode} (h : node.Covers s tree projection paths parent id)
    (hne : node.name ≠ name) :
    node.Covers s tree projection (paths ++ [⟨parent.segments ++ name :: rest⟩]) parent id := by
  refine h.congr fun path hpre => ?_
  rw [h.follows.path] at hpre
  rw [goThrough_concat, Bool.eq_false_iff.mpr fun hthrough => hne (eq_of_goes_on hpre hthrough), Bool.or_false]

/-- A path that goes on to a node that is there changes what is below it. -/
theorem NodesCover.goOn (hnodes : NodesCover s tree projection paths parent id nodes) (hmem : name ∈ nodes.map (·.name))
    {below : PrefetchNode → List PrefetchNode}
    (hbelow : ∀ node ∈ nodes, node.name = name →
      NodesCover s tree projection (paths ++ [⟨parent.segments ++ name :: rest⟩]) node.path
        (s.relation node.relation).target (below node)) :
    NodesCover s tree projection (paths ++ [⟨parent.segments ++ name :: rest⟩]) parent id
      (nodes.map fun n => if n.name == name then { n with children := below n } else n) := by
  refine ⟨?_, fun other => ?_, fun node hn => ?_⟩
  · rw [map_name_ite]
    exact hnodes.names
  · rw [map_name_ite, goThrough_concat_child, ← hnodes.complete]
    exact ⟨.inl, fun h => h.elim (fun hother => hother) fun he => he ▸ hmem⟩
  · obtain ⟨old, hold, rfl⟩ := List.mem_map.mp hn
    split
    case isTrue hhere =>
      obtain ⟨path, found, joined, shows⟩ := (hnodes.below old hold).follows
      have hcovered := hbelow old hold (eq_of_beq hhere)
      exact .intro ⟨path, found, joined, shows⟩ hcovered.names hcovered.complete hcovered.below
    case isFalse hne => exact (hnodes.below old hold).concat fun he => hne (beq_iff_eq.mpr he)

/-- A path that goes on to no node that is there adds one. -/
theorem NodesCover.addNew (hnodes : NodesCover s tree projection paths parent id nodes)
    (hnew : name ∉ nodes.map (·.name)) {node : PrefetchNode} (hname : node.name = name)
    (hnode : node.Covers s tree projection (paths ++ [⟨parent.segments ++ name :: rest⟩]) parent id) :
    NodesCover s tree projection (paths ++ [⟨parent.segments ++ name :: rest⟩]) parent id (nodes ++ [node]) := by
  refine ⟨?_, fun other => ?_, List.forall_mem_append.mpr ⟨fun old hold => ?_, List.forall_mem_singleton.mpr hnode⟩⟩
  · rw [List.map_append, List.map_singleton, hname]
    exact List.nodup_append.mpr ⟨hnodes.names, List.nodup_singleton _, by simpa using hnew⟩
  · rw [List.map_append, List.map_singleton, hname, goThrough_concat_child, List.mem_append, List.mem_singleton,
      hnodes.complete]
  · exact (hnodes.below old hold).concat fun he => hnew (he ▸ List.mem_map_of_mem hold)

end

/-- Adding the nodes along a path to those of some paths gives those of all of them. -/
theorem nodesCover_insertSteps {parent : Path} {id target : EntityId} {names : List String} {hops : List RelationId}
    (hwalk : s.walk id names = .ok (hops, target)) {nodes : List PrefetchNode}
    (hnodes : NodesCover s tree projection paths parent id nodes) :
    NodesCover s tree projection (paths ++ [⟨parent.segments ++ names⟩]) parent id
      (insertSteps tree projection (stepsAfter parent names hops) nodes) := by
  induction names generalizing paths parent id hops nodes with
  | nil =>
    cases hwalk
    -- the path ends above the nodes, so none of them gains anything by it
    refine hnodes.congr fun name path hpre => ?_
    have hback : path.isPrefixOf ⟨parent.segments ++ []⟩ = false := Bool.eq_false_iff.mpr fun hback => by
      have hle := (hpre.trans (Path.isPrefixOf_iff.mp hback)).length_le
      simp only [Path.child, List.append_nil, List.length_append, List.length_singleton] at hle
      omega
    rw [goThrough_concat, hback, Bool.or_false]
  | cons name rest ih =>
    obtain ⟨hop, more, hfind, hrest, rfl⟩ := walk_cons.mp hwalk
    have hq : (⟨parent.segments ++ name :: rest⟩ : Path) = ⟨(parent.child name).segments ++ rest⟩ := by
      simp [Path.child]
    have hlast : (PrefetchNode.ofStep tree projection (parent.child name, hop)).name = name := by
      simp [PrefetchNode.ofStep, Path.child, Path.last?]
    rw [stepsAfter, insertSteps, hlast]
    split
    case isTrue hany =>
      obtain ⟨found, hfound, hname⟩ := List.any_eq_true.mp hany
      refine hnodes.goOn (eq_of_beq hname ▸ List.mem_map_of_mem hfound) fun node hn hhere => ?_
      obtain ⟨hpath, hnodeFound, -, -⟩ := (hnodes.below node hn).follows
      have hchildren := (hnodes.below node hn).children
      rw [hhere] at hpath hnodeFound
      cases hfind.symm.trans hnodeFound
      rw [hpath] at hchildren ⊢
      exact hq ▸ ih hrest hchildren
    case isFalse hnone =>
      have hnew : name ∉ nodes.map (·.name) := fun hmem => by
        obtain ⟨old, hold, hname⟩ := List.mem_map.mp hmem
        exact hnone (List.any_eq_true.mpr ⟨old, hold, beq_iff_eq.mpr hname⟩)
      have hnowhere : ∀ other, goThrough paths ((parent.child name).child other) = false := fun other =>
        Bool.eq_false_iff.mpr fun hthrough =>
          hnew ((hnodes.complete name).mpr (goThrough_ancestor hthrough (List.prefix_append _ _)))
      have hcovered := ih hrest (nodesCover_nil hnowhere (s.relation hop).target)
      rw [← hq] at hcovered
      exact hnodes.addNew hnew rfl (.intro ⟨rfl, hfind, rfl, rfl⟩ hcovered.names hcovered.complete hcovered.below)

theorem nodesCover_foldl {root : EntityId} {resolved : List ResolvedPath}
    (hresolved : ∀ r ∈ resolved, r.Resolves s root) {nodes : List PrefetchNode}
    (hnodes : NodesCover s tree projection paths .root root nodes) :
    NodesCover s tree projection (paths ++ resolved.map (·.path)) .root root
      (resolved.foldl (fun nodes r => insertSteps tree projection r.steps nodes) nodes) := by
  induction resolved generalizing paths nodes with
  | nil => rwa [List.map_nil, List.append_nil]
  | cons r rest ih =>
    obtain ⟨hr, hrest⟩ := List.forall_mem_cons.mp hresolved
    have hone := nodesCover_insertSteps hr hnodes
    rw [← steps_eq] at hone
    have hmore := ih hrest hone
    rwa [List.append_assoc] at hmore

/-- Nothing of a node changes when an ordering is added below it, but for orderings. -/
theorem addOrder_eq (o : OrderSpec) (node : PrefetchNode) :
    ∃ orderBy children, node.addOrder o = { node with orderBy, children } ∧
      (children = node.children ∨ children = addOrderBelow o node.children) := by
  obtain ⟨path, name, relation, isJoined, projection, orderBy, children⟩ := node
  unfold PrefetchNode.addOrder
  split
  · exact ⟨orderBy, addOrderBelow o children, rfl, .inr rfl⟩
  · split
    · exact ⟨orderBy, children, rfl, .inl rfl⟩
    · exact ⟨_, children, rfl, .inl rfl⟩

theorem map_name_addOrderBelow (o : OrderSpec) (nodes : List PrefetchNode) :
    (addOrderBelow o nodes).map (·.name) = nodes.map (·.name) := by
  induction nodes with
  | nil => rfl
  | cons node rest ih =>
    rw [addOrderBelow]
    split
    · obtain ⟨orderBy, children, he, -⟩ := addOrder_eq o node
      rw [he, List.map_cons, List.map_cons]
    · rw [List.map_cons, List.map_cons, ih]

theorem mem_addOrderBelow {o : OrderSpec} {nodes : List PrefetchNode} {node : PrefetchNode}
    (h : node ∈ addOrderBelow o nodes) : node ∈ nodes ∨ ∃ old ∈ nodes, node = old.addOrder o := by
  induction nodes with
  | nil => cases h
  | cons first rest ih =>
    rw [addOrderBelow] at h
    split at h
    · rcases List.mem_cons.mp h with rfl | hrest
      · exact .inr ⟨first, List.mem_cons_self .., rfl⟩
      · exact .inl (List.mem_cons_of_mem _ hrest)
    · rcases List.mem_cons.mp h with rfl | hrest
      · exact .inl (List.mem_cons_self ..)
      · rcases ih hrest with hmem | ⟨old, hold, he⟩
        · exact .inl (List.mem_cons_of_mem _ hmem)
        · exact .inr ⟨old, List.mem_cons_of_mem _ hold, he⟩

theorem covers_addOrder (o : OrderSpec) {parent : Path} {id : EntityId} {node : PrefetchNode}
    (h : node.Covers s tree projection paths parent id) : (node.addOrder o).Covers s tree projection paths parent id := by
  induction h with
  | @intro parent id node follows names complete below ih =>
    obtain ⟨orderBy, children, he, hchildren⟩ := addOrder_eq o node
    obtain ⟨path, found, joined, shows⟩ := follows
    have hnames : children.map (·.name) = node.children.map (·.name) := by
      rcases hchildren with rfl | rfl
      · rfl
      · exact map_name_addOrderBelow o _
    rw [he]
    refine .intro ⟨path, found, joined, shows⟩ (hnames ▸ names) (hnames ▸ complete) fun child hchild => ?_
    dsimp only at hchild ⊢
    rcases hchildren with rfl | rfl
    · exact below child hchild
    · rcases mem_addOrderBelow hchild with hmem | ⟨old, hold, rfl⟩
      · exact below child hmem
      · exact ih old hold

theorem nodesCover_addOrders {parent : Path} {id : EntityId} (orderBy : List OrderSpec) {nodes : List PrefetchNode}
    (h : NodesCover s tree projection paths parent id nodes) :
    NodesCover s tree projection paths parent id (orderBy.foldl (fun nodes o => addOrderBelow o nodes) nodes) := by
  induction orderBy generalizing nodes with
  | nil => exact h
  | cons o rest ih =>
    refine ih ⟨?_, ?_, fun node hn => ?_⟩
    · rw [map_name_addOrderBelow]
      exact h.names
    · rw [map_name_addOrderBelow]
      exact h.complete
    · rcases mem_addOrderBelow hn with hmem | ⟨old, hold, rfl⟩
      · exact h.below node hmem
      · exact covers_addOrder o (h.below old hold)

/-! ### Built plans -/

/-- The nodes of a plan before orderings are given to them. -/
def PrefetchPlan.unordered (tree : JoinTree) (p : Projection) (resolved : List ResolvedPath) : PrefetchPlan :=
  resolved.foldl (fun nodes r => insertSteps tree p r.steps nodes) []

theorem build_eq_ok {root : EntityId} {orderBy : List OrderSpec} {plan : PrefetchPlan}
    (h : PrefetchPlan.build s root paths tree projection orderBy = .ok plan) :
    ∃ resolved, PrefetchPlan.pathsToLoad s root projection paths = .ok resolved ∧
      plan = orderBy.foldl (fun nodes o => addOrderBelow o nodes) (PrefetchPlan.unordered tree projection resolved) := by
  obtain ⟨resolved, hresolved, rfl⟩ := map_eq_ok.mp h
  exact ⟨resolved, hresolved, rfl⟩

/-- The paths that are loaded: those that lead somewhere and that the projection keeps. -/
def PrefetchPlan.keptPaths (projection : Projection) (paths : List Path) : List Path :=
  paths.filter fun path => !path.isRoot && !projection.excludesPath path

theorem pathsToLoad_eq_ok {root : EntityId} {resolved : List ResolvedPath}
    (h : PrefetchPlan.pathsToLoad s root projection paths = .ok resolved) :
    (∀ r ∈ resolved, r.Resolves s root) ∧
      resolved.map (·.path) = PrefetchPlan.keptPaths projection paths := by
  obtain ⟨all, hall, rfl⟩ := map_eq_ok.mp h
  constructor
  · intro r hr
    obtain ⟨path, -, hpath⟩ := exists_of_mem_forall₂ (mapM_eq_ok.mp hall) (List.mem_filter.mp hr).1
    exact (resolve_eq_ok.mp hpath).2
  · rw [← map_path_of_resolve hall, PrefetchPlan.keptPaths, List.filter_map]
    rfl

theorem nodesCover_unordered {root : EntityId} {resolved : List ResolvedPath}
    (h : PrefetchPlan.pathsToLoad s root projection paths = .ok resolved) :
    NodesCover s tree projection (PrefetchPlan.keptPaths projection paths) .root root
      (PrefetchPlan.unordered tree projection resolved) := by
  obtain ⟨hresolves, hpaths⟩ := pathsToLoad_eq_ok h
  have hnothing : NodesCover s tree projection [] .root root [] := nodesCover_nil (fun _ => rfl) root
  have hcover := nodesCover_foldl hresolves hnothing
  rwa [List.nil_append, hpaths] at hcover

/-- A plan loads along the paths that the projection keeps. -/
theorem nodesCover_build {root : EntityId} {orderBy : List OrderSpec} {plan : PrefetchPlan}
    (h : PrefetchPlan.build s root paths tree projection orderBy = .ok plan) :
    NodesCover s tree projection (PrefetchPlan.keptPaths projection paths) .root root plan := by
  obtain ⟨resolved, hresolved, rfl⟩ := build_eq_ok h
  exact nodesCover_addOrders orderBy (nodesCover_unordered hresolved)

theorem exists_build {root : EntityId} (hpaths : ∀ path ∈ paths, ∃ r, s.resolve root path = .ok r)
    (tree : JoinTree) (projection : Projection) (orderBy : List OrderSpec) :
    ∃ plan, PrefetchPlan.build s root paths tree projection orderBy = .ok plan := by
  obtain ⟨resolved, hresolved⟩ := exists_mapM_eq_ok hpaths
  exact ⟨_, map_eq_ok.mpr ⟨_, map_eq_ok.mpr ⟨resolved, hresolved, rfl⟩, rfl⟩⟩

mutual

/-- The node and all below it. -/
def PrefetchNode.listed : PrefetchNode → List PrefetchNode
  | ⟨path, name, relation, isJoined, projection, orderBy, children⟩ =>
    ⟨path, name, relation, isJoined, projection, orderBy, children⟩ :: nodesListed children
termination_by structural node => node

def nodesListed : List PrefetchNode → List PrefetchNode
  | [] => []
  | node :: rest => node.listed ++ nodesListed rest
termination_by structural nodes => nodes

end

theorem PrefetchNode.listed_eq (node : PrefetchNode) : node.listed = node :: nodesListed node.children := by
  obtain ⟨path, name, relation, isJoined, projection, orderBy, children⟩ := node
  rfl

theorem mem_nodesListed {nodes : List PrefetchNode} {node : PrefetchNode} :
    node ∈ nodesListed nodes ↔ ∃ above ∈ nodes, node ∈ above.listed := by
  induction nodes with
  | nil => simp [nodesListed]
  | cons first rest ih => simp [nodesListed, ih]

theorem PrefetchNode.mem_listed {node below : PrefetchNode} :
    below ∈ node.listed ↔ below = node ∨ below ∈ nodesListed node.children := by
  rw [node.listed_eq, List.mem_cons]

mutual

theorem PrefetchNode.listed_below : ∀ {above node : PrefetchNode}, node ∈ above.listed →
    nodesListed node.children ⊆ nodesListed above.children
  | ⟨path, name, relation, isJoined, projection, orderBy, children⟩, node, h => by
    rcases PrefetchNode.mem_listed.mp h with rfl | h
    · exact List.Subset.refl _
    · exact fun below hbelow => mem_nodesListed_of_below h hbelow
termination_by structural above => above

theorem mem_nodesListed_of_below : ∀ {nodes : List PrefetchNode} {node below : PrefetchNode},
    node ∈ nodesListed nodes → below ∈ nodesListed node.children → below ∈ nodesListed nodes
  | first :: rest, node, below, hnode, hbelow => by
    rcases List.mem_append.mp hnode with hnode | hnode
    · have := PrefetchNode.listed_below hnode hbelow
      exact List.mem_append_left _ (PrefetchNode.mem_listed.mpr (.inr this))
    · exact List.mem_append_right _ (mem_nodesListed_of_below hnode hbelow)
termination_by structural nodes => nodes

end

/-- The nodes below a node are further along its path. -/
theorem PrefetchNode.Covers.prefix_of_mem_listed {parent : Path} {id : EntityId} {node : PrefetchNode}
    (h : node.Covers s tree projection paths parent id) :
    ∀ below ∈ node.listed, node.path.segments <+: below.path.segments := by
  induction h with
  | @intro parent id node follows names complete below ih =>
    intro m hm
    rcases PrefetchNode.mem_listed.mp hm with rfl | hm
    · exact List.prefix_rfl
    · obtain ⟨child, hchild, hm⟩ := mem_nodesListed.mp hm
      refine List.IsPrefix.trans ?_ (ih child hchild m hm)
      rw [(below child hchild).follows.path]
      exact List.prefix_append _ _

/-- Every node of a plan follows a relation of the entity at the path before it. -/
theorem PrefetchNode.Covers.of_mem_listed {root : EntityId} {parent : Path} {id : EntityId} {node : PrefetchNode}
    (h : node.Covers s tree projection paths parent id) {hops : List RelationId}
    (hparent : s.walk root parent.segments = .ok (hops, id)) :
    ∀ below ∈ node.listed, ∃ parent' id' hops', s.walk root parent'.segments = .ok (hops', id') ∧
      below.Covers s tree projection paths parent' id' := by
  induction h generalizing hops with
  | @intro parent id node follows names complete below ih =>
    intro m hm
    rcases PrefetchNode.mem_listed.mp hm with rfl | hm
    · exact ⟨parent, id, hops, hparent, .intro follows names complete below⟩
    · obtain ⟨child, hchild, hm⟩ := mem_nodesListed.mp hm
      have hnode : s.walk root node.path.segments = .ok (hops ++ [node.relation], (s.relation node.relation).target) := by
        rw [follows.path]
        exact walk_concat.mpr ⟨hops, id, node.relation, hparent, follows.found, rfl, rfl⟩
      exact ih child hchild hnode m hm

theorem NodesCover.of_mem_listed {root : EntityId} {nodes : List PrefetchNode}
    (h : NodesCover s tree projection paths .root root nodes) {node : PrefetchNode} (hnode : node ∈ nodesListed nodes) :
    ∃ parent id hops, s.walk root parent.segments = .ok (hops, id) ∧ node.Covers s tree projection paths parent id := by
  obtain ⟨above, habove, hmem⟩ := mem_nodesListed.mp hnode
  exact (h.below above habove).of_mem_listed rfl node hmem

/-- A plan has a node for every path that the paths to load go through. -/
theorem NodesCover.exists_listed {names : List String} :
    ∀ {parent : Path} {id : EntityId} {nodes : List PrefetchNode}, NodesCover s tree projection paths parent id nodes →
      names ≠ [] → goThrough paths ⟨parent.segments ++ names⟩ = true →
      ∃ node ∈ nodesListed nodes, node.path = ⟨parent.segments ++ names⟩ := by
  induction names with
  | nil => exact fun _ hne => absurd rfl hne
  | cons name rest ih =>
    intro parent id nodes h _ hthrough
    have hq : (⟨parent.segments ++ name :: rest⟩ : Path) = ⟨(parent.child name).segments ++ rest⟩ := by
      simp [Path.child]
    rw [hq] at hthrough ⊢
    have hfirst := (h.complete name).mpr (goThrough_ancestor hthrough (List.prefix_append _ _))
    obtain ⟨node, hnode, rfl⟩ := List.mem_map.mp hfirst
    have hcovers := h.below node hnode
    have hpath := hcovers.follows.path
    cases rest with
    | nil =>
      refine ⟨node, mem_nodesListed.mpr ⟨node, hnode, PrefetchNode.mem_listed.mpr (.inl rfl)⟩, ?_⟩
      rw [hpath, List.append_nil]
    | cons next rest =>
      rw [← hpath] at hthrough ⊢
      obtain ⟨below, hbelow, he⟩ := ih hcovers.children (List.cons_ne_nil _ _) hthrough
      exact ⟨below, mem_nodesListed.mpr ⟨node, hnode, PrefetchNode.mem_listed.mpr (.inr hbelow)⟩, he⟩

/-- The paths to load go through the path of every node. -/
theorem PrefetchNode.Covers.goThrough_listed {parent : Path} {id : EntityId} {node : PrefetchNode}
    (h : node.Covers s tree projection paths parent id) (hnode : goThrough paths node.path = true) :
    ∀ below ∈ node.listed, goThrough paths below.path = true := by
  induction h with
  | @intro parent id node follows names complete below ih =>
    intro m hm
    rcases PrefetchNode.mem_listed.mp hm with rfl | hm
    · exact hnode
    · obtain ⟨child, hchild, hm⟩ := mem_nodesListed.mp hm
      refine ih child hchild ?_ m hm
      rw [(below child hchild).follows.path]
      exact (complete child.name).mp (List.mem_map_of_mem hchild)

theorem NodesCover.goThrough_listed {parent : Path} {id : EntityId} {nodes : List PrefetchNode}
    (h : NodesCover s tree projection paths parent id nodes) {node : PrefetchNode} (hnode : node ∈ nodesListed nodes) :
    goThrough paths node.path = true := by
  obtain ⟨above, habove, hmem⟩ := mem_nodesListed.mp hnode
  have hcovers := h.below above habove
  refine hcovers.goThrough_listed ?_ node hmem
  rw [hcovers.follows.path]
  exact (h.complete above.name).mp (List.mem_map_of_mem habove)

end RelQuery
