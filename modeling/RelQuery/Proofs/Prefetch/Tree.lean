import RelQuery.Proofs.Prefetch.Orders

/-!
# Prefetch plans as prefix trees

A built plan is the tree of the paths that the paths to load begin with. Each of them is the path of one node, which
stands below the node of the path before it. Being joined is handed up the tree, and every ordering goes to the deepest
node that can take it.
-/

namespace RelQuery

variable {s : Schema} {tree : JoinTree} {projection : Projection} {paths : List Path} {parent : Path} {id : EntityId}
  {node : PrefetchNode} {nodes : List PrefetchNode}

theorem nodesContain_append {joined : List JoinNode} {names more : List String}
    (h : nodesContain joined (names ++ more) = true) : nodesContain joined names = true := by
  induction names generalizing joined with
  | nil => rfl
  | cons name rest ih =>
    rw [List.cons_append, nodesContain] at h
    rw [nodesContain]
    split at h
    · exact ih h
    · cases h

theorem JoinTree.contains_of_isPrefix {path longer : Path} (h : tree.contains longer = true)
    (hpre : path.segments <+: longer.segments) : tree.contains path = true := by
  obtain ⟨more, hmore⟩ := hpre
  unfold contains at h ⊢
  rw [← hmore] at h
  exact nodesContain_append h

theorem nodesListed_eq_flatMap (nodes : List PrefetchNode) : nodesListed nodes = nodes.flatMap (·.listed) := by
  induction nodes with
  | nil => rfl
  | cons first rest ih => rw [nodesListed, ih, List.flatMap_cons]

theorem NodesCover.nodup_of_each (h : NodesCover s tree projection paths parent id nodes)
    (heach : ∀ node ∈ nodes, (node.listed.map (·.path)).Nodup) : ((nodesListed nodes).map (·.path)).Nodup := by
  rw [nodesListed_eq_flatMap, List.map_flatMap]
  refine Path.nodup_flatMap_of_names parent h.names (fun node hnode path hpath => ?_) heach
  obtain ⟨m, hm, rfl⟩ := List.mem_map.mp hpath
  rw [← (h.below node hnode).follows.path]
  exact (h.below node hnode).prefix_of_mem_listed m hm

theorem PrefetchNode.Covers.length_lt (h : node.Covers s tree projection paths parent id) :
    ∀ below ∈ nodesListed node.children, node.path.length < below.path.length := by
  intro below hbelow
  obtain ⟨child, hchild, hlisted⟩ := mem_nodesListed.mp hbelow
  have hcovers := h.children.below child hchild
  have hle := (hcovers.prefix_of_mem_listed below hlisted).length_le
  rw [hcovers.follows.path] at hle
  exact Nat.lt_of_lt_of_le (Nat.lt_succ_self _) ((Path.length_child _ _).symm.le.trans hle)

theorem PrefetchNode.Covers.nodup_listed (h : node.Covers s tree projection paths parent id) :
    (node.listed.map (·.path)).Nodup := by
  induction h with
  | @intro parent id node follows names complete below ih =>
    have hcovers := Covers.intro follows names complete below
    rw [node.listed_eq, List.map_cons]
    refine List.nodup_cons.mpr ⟨fun hmem => ?_, hcovers.children.nodup_of_each ih⟩
    obtain ⟨m, hm, hpath⟩ := List.mem_map.mp hmem
    have hlt := hcovers.length_lt m hm
    rw [hpath] at hlt
    exact Nat.lt_irrefl _ hlt

theorem NodesCover.nodup_listed (h : NodesCover s tree projection paths parent id nodes) :
    ((nodesListed nodes).map (·.path)).Nodup :=
  h.nodup_of_each fun node hnode => (h.below node hnode).nodup_listed

theorem PrefetchNode.Covers.exists_resolve {root : EntityId} (h : node.Covers s tree projection paths parent id)
    {hops : List RelationId} (hwalk : s.walk root parent.segments = .ok (hops, id)) :
    ∃ r, s.resolve root node.path = .ok r ∧ r.lastHop? = some node.relation := by
  refine ⟨⟨node.path, hops ++ [node.relation], (s.relation node.relation).target⟩, resolve_eq_ok.mpr ⟨rfl, ?_⟩, ?_⟩
  · change s.walk root node.path.segments = _
    rw [h.follows.path]
    exact walk_concat.mpr ⟨hops, id, node.relation, hwalk, h.follows.found, rfl, rfl⟩
  · exact List.getLast?_concat ..

theorem PrefetchNode.Covers.below_unjoined (h : node.Covers s tree projection paths parent id) :
    node.isJoined = false → ∀ below ∈ nodesListed node.children, below.isJoined = false := by
  induction h with
  | @intro parent id node follows names complete below ih =>
    intro hunjoined m hm
    obtain ⟨child, hchild, hlisted⟩ := mem_nodesListed.mp hm
    have hchildUnjoined : child.isJoined = false := by
      have hfollows := (below child hchild).follows
      rw [follows.joined] at hunjoined
      rw [hfollows.joined, Bool.eq_false_iff]
      intro hcontains
      refine Bool.eq_false_iff.mp hunjoined (JoinTree.contains_of_isPrefix hcontains ?_)
      rw [hfollows.path]
      exact List.prefix_append _ _
    rcases PrefetchNode.mem_listed.mp hlisted with rfl | hbelow
    · exact hchildUnjoined
    · exact ih child hchild hchildUnjoined m hbelow

/-- Whether the node can take the ordering and no node of the plan that can is deeper. -/
def PrefetchPlan.givesTo (plan : PrefetchPlan) (o : OrderSpec) (node : PrefetchNode) : Bool :=
  node.canTake o &&
    (nodesListed plan).all fun other => !other.canTake o || decide (other.path.length ≤ node.path.length)

theorem PrefetchPlan.givesTo_iff {plan : PrefetchPlan} {o : OrderSpec} :
    plan.givesTo o node = true ↔ node.canTake o = true ∧
      ∀ other ∈ nodesListed plan, other.canTake o = true → other.path.length ≤ node.path.length := by
  unfold givesTo
  simp only [Bool.and_eq_true, List.all_eq_true, Bool.or_eq_true, Bool.not_eq_true', decide_eq_true_eq,
    ← Bool.not_eq_true, imp_iff_not_or]

theorem PrefetchNode.takes_iff {o : OrderSpec} :
    node.takes o = true ↔ node.canTake o = true ∧ ∀ below ∈ nodesListed node.children, below.canTake o = false := by
  unfold takes
  simp only [Bool.and_eq_true, Bool.not_eq_true', List.any_eq_false, Bool.not_eq_true]

/-- A deeper node that can take an ordering lies below a node that can, and there is one there that can. -/
theorem NodesCover.exists_below_of_longer {root : EntityId} {plan : PrefetchPlan} {o : OrderSpec}
    (h : NodesCover s tree projection paths .root root plan) {node other : PrefetchNode} (hnode : node ∈ nodesListed plan)
    (hother : other ∈ nodesListed plan) (hcan : node.canTake o = true) (hcanOther : other.canTake o = true)
    (hlonger : node.path.length < other.path.length) :
    ∃ below ∈ nodesListed node.children, below.canTake o = true := by
  obtain ⟨parent, id, -, -, hcovers⟩ := h.of_mem_listed hnode
  obtain ⟨parent', id', -, -, hcovers'⟩ := h.of_mem_listed hother
  obtain ⟨hunjoined, hgoes⟩ := PrefetchNode.canTake_iff.mp hcanOther
  -- both paths lead to the ordered field, so the longer one goes on from the shorter one
  have hpre : node.path.segments <+: other.path.segments := by
    have hstart := Path.isPrefixOf_iff.mp (Bool.and_eq_true_iff.mp (PrefetchNode.canTake_iff.mp hcan).2).2
    have hstart' := Path.isPrefixOf_iff.mp (Bool.and_eq_true_iff.mp hgoes).2
    exact List.prefix_of_prefix_length_le hstart hstart' hlonger.le
  obtain ⟨names, hnames⟩ := hpre
  have hne : names ≠ [] := by
    rintro rfl
    rw [List.append_nil] at hnames
    exact Nat.ne_of_lt hlonger (congrArg List.length hnames)
  have hpath : other.path = ⟨node.path.segments ++ names⟩ := congrArg Path.mk hnames.symm
  obtain ⟨below, hbelow, hsame⟩ := hcovers.children.exists_listed hne (hpath ▸ h.goThrough_listed hother)
  obtain ⟨_, _, -, -, hcoversBelow⟩ := h.of_mem_listed (mem_nodesListed_of_below hnode hbelow)
  refine ⟨below, hbelow, PrefetchNode.canTake_iff.mpr ⟨?_, ?_⟩⟩
  · rw [hcoversBelow.follows.joined, hsame, ← hpath, ← hcovers'.follows.joined, hunjoined]
  · rw [hsame, ← hpath, hgoes]

/-- The node that takes an ordering, because none below it can, is the deepest of all that can. -/
theorem NodesCover.takes_eq_givesTo {root : EntityId} {plan : PrefetchPlan}
    (h : NodesCover s tree projection paths .root root plan) {node : PrefetchNode} (hnode : node ∈ nodesListed plan)
    (o : OrderSpec) : node.takes o = plan.givesTo o node := by
  rw [Bool.eq_iff_iff, PrefetchNode.takes_iff, PrefetchPlan.givesTo_iff]
  refine and_congr_right fun hcan => ⟨fun hnone other hother hcanOther => ?_, fun hdeepest below hbelow => ?_⟩
  · by_contra hlonger
    obtain ⟨below, hbelow, hcanBelow⟩ :=
      h.exists_below_of_longer hnode hother hcan hcanOther (Nat.lt_of_not_le hlonger)
    rw [hnone below hbelow] at hcanBelow
    cases hcanBelow
  · refine Bool.eq_false_iff.mpr fun hcanBelow => ?_
    obtain ⟨parent, id, -, -, hcovers⟩ := h.of_mem_listed hnode
    exact Nat.not_le_of_lt (hcovers.length_lt below hbelow)
      (hdeepest below (mem_nodesListed_of_below hnode hbelow) hcanBelow)

/-- The plan is the tree of the paths that paths to load begin with, as far as the projection keeps these. -/
structure PrefetchPlan.IsPrefixTree (plan : PrefetchPlan) (s : Schema) (root : EntityId) (paths : List Path)
    (tree : JoinTree) (projection : Projection) (later : List OrderSpec) : Prop where
  paths : ∀ path : Path, path ∈ (nodesListed plan).map (·.path) ↔
    path ≠ .root ∧ ∃ q ∈ paths, projection.excludesPath q = false ∧ path.segments <+: q.segments
  once : ((nodesListed plan).map (·.path)).Nodup
  names : (plan.map (·.name)).Nodup ∧ ∀ node ∈ nodesListed plan, (node.children.map (·.name)).Nodup
  /-- A node is one relation further than what it is below. -/
  further : (∀ node ∈ plan, node.path = Path.root.child node.name) ∧
    ∀ node ∈ nodesListed plan, ∀ child ∈ node.children, child.path = node.path.child child.name
  relation : ∀ node ∈ nodesListed plan, ∃ r, s.resolve root node.path = .ok r ∧ r.lastHop? = some node.relation
  shows : ∀ node ∈ nodesListed plan, node.projection = projection.at_ node.path
  joined : ∀ node ∈ nodesListed plan, node.isJoined = tree.contains node.path
  unjoined : ∀ node ∈ nodesListed plan, node.isJoined = false →
    ∀ below ∈ nodesListed node.children, below.isJoined = false
  /-- A node has the orderings that the plan gives to it, in the order given, as seen from its path. -/
  orderBy : ∀ node ∈ nodesListed plan,
    node.orderBy = (later.filter (plan.givesTo · node)).map (·.below node.path)
  /-- An ordering that some node can take is given to one node. -/
  given : ∀ o : OrderSpec, (∃ node ∈ nodesListed plan, node.canTake o = true) →
    ∃ node, (nodesListed plan).filter (plan.givesTo o) = [node]

theorem mem_keptPaths {projection : Projection} {paths : List Path} {q : Path} :
    q ∈ PrefetchPlan.keptPaths projection paths ↔ q ∈ paths ∧ q ≠ .root ∧ projection.excludesPath q = false := by
  unfold PrefetchPlan.keptPaths
  rw [List.mem_filter, Bool.and_eq_true, Bool.not_eq_true', Bool.not_eq_true', ← Bool.not_eq_true, Path.isRoot_iff]

/-- The paths of the nodes are those that kept paths go through. -/
theorem NodesCover.mem_paths {root : EntityId} {plan : PrefetchPlan}
    (h : NodesCover s tree projection paths .root root plan) {path : Path} :
    path ∈ (nodesListed plan).map (·.path) ↔ path ≠ .root ∧ goThrough paths path = true := by
  constructor
  · intro hmem
    obtain ⟨node, hnode, rfl⟩ := List.mem_map.mp hmem
    obtain ⟨parent, id, -, -, hcovers⟩ := h.of_mem_listed hnode
    refine ⟨?_, h.goThrough_listed hnode⟩
    rw [hcovers.follows.path]
    exact Path.child_ne_root _ _
  · rintro ⟨hne, hthrough⟩
    obtain ⟨node, hnode, hpath⟩ := h.exists_listed (fun hnil => hne (congrArg Path.mk hnil)) hthrough
    exact List.mem_map.mpr ⟨node, hnode, hpath⟩

theorem isPrefixTree_of_build {root : EntityId} {later : List OrderSpec} {plan : PrefetchPlan}
    (h : PrefetchPlan.build s root paths tree projection later = .ok plan) :
    plan.IsPrefixTree s root paths tree projection later := by
  have hcover := nodesCover_build h
  have hcovers := fun node (hnode : node ∈ nodesListed plan) => hcover.of_mem_listed hnode
  refine ⟨fun path => ?_, hcover.nodup_listed, ⟨hcover.names, fun node hnode => ?_⟩,
    ⟨fun node hnode => (hcover.below node hnode).follows.path, fun node hnode child hchild => ?_⟩,
    fun node hnode => ?_, fun node hnode => ?_, fun node hnode => ?_, fun node hnode => ?_, fun node hnode => ?_,
    fun o hsome => ?_⟩
  · rw [hcover.mem_paths, goThrough_iff]
    refine and_congr_right fun hne => ?_
    simp only [mem_keptPaths]
    constructor
    · rintro ⟨q, ⟨hq, -, hkept⟩, hpre⟩
      exact ⟨q, hq, hkept, hpre⟩
    · rintro ⟨q, hq, hkept, hpre⟩
      exact ⟨q, ⟨hq, Path.ne_root_of_prefix hpre hne, hkept⟩, hpre⟩
  · obtain ⟨_, _, -, -, hnodeCovers⟩ := hcovers node hnode
    exact hnodeCovers.children.names
  · obtain ⟨_, _, -, -, hnodeCovers⟩ := hcovers node hnode
    exact (hnodeCovers.children.below child hchild).follows.path
  · obtain ⟨_, _, hops, hwalk, hnodeCovers⟩ := hcovers node hnode
    exact hnodeCovers.exists_resolve hwalk
  · obtain ⟨_, _, -, -, hnodeCovers⟩ := hcovers node hnode
    exact hnodeCovers.follows.shows
  · obtain ⟨_, _, -, -, hnodeCovers⟩ := hcovers node hnode
    exact hnodeCovers.follows.joined
  · obtain ⟨_, _, -, -, hnodeCovers⟩ := hcovers node hnode
    exact hnodeCovers.below_unjoined
  · have htakes : (fun o => node.takes o) = fun o => plan.givesTo o node :=
      funext fun o => hcover.takes_eq_givesTo hnode o
    rw [orderBy_of_build h node hnode, htakes]
  · have hone := hcover.countTaking o
    rw [if_pos (List.any_eq_true.mpr hsome), countTaking,
      List.filter_congr fun node hnode => hcover.takes_eq_givesTo hnode o] at hone
    exact List.length_eq_one_iff.mp hone

/-- For paths that resolve there is a plan, and it is the tree of the paths that they begin with. -/
theorem build_isPrefixTree {root : EntityId} (hpaths : ∀ path ∈ paths, ∃ r, s.resolve root path = .ok r)
    (tree : JoinTree) (projection : Projection) (later : List OrderSpec) :
    ∃ plan, PrefetchPlan.build s root paths tree projection later = .ok plan ∧
      plan.IsPrefixTree s root paths tree projection later := by
  obtain ⟨plan, hplan⟩ := exists_build hpaths tree projection later
  exact ⟨plan, hplan, isPrefixTree_of_build hplan⟩

/-- Books with their authors joined to them. -/
def authorJoined : JoinTree :=
  ⟨⟨1⟩, [], [⟨⟨0⟩, "author", ⟨["author"]⟩, ⟨0⟩, ⟨"5c1a2e"⟩, false, false, [], []⟩]⟩

/-- The other books of the author of a book, asked for along with the author. -/
def otherBooks : List Path := [⟨["author", "books"]⟩, ⟨["author"]⟩, ⟨["author", "books"]⟩]

/-- The statement for the other books orders them, and nothing orders the authors. -/
theorem build_isPrefixTree_otherBooks :
    (∀ path ∈ otherBooks, ∃ r, authorSchema.resolve ⟨1⟩ path = .ok r) ∧
      ∃ plan, PrefetchPlan.build authorSchema ⟨1⟩ otherBooks authorJoined .empty
          [⟨["author", "id"], false⟩, ⟨["author", "books", "pages"], true⟩] = .ok plan ∧
        nodesOutline authorSchema plan =
          [⟨"author", "Book.author", true, []⟩, ⟨"author__books", "Author.books", false, ["-pages"]⟩] ∧
        plan.IsPrefixTree authorSchema ⟨1⟩ otherBooks authorJoined .empty
          [⟨["author", "id"], false⟩, ⟨["author", "books", "pages"], true⟩] := by
  have hpaths : ∀ path ∈ otherBooks, ∃ r, authorSchema.resolve ⟨1⟩ path = .ok r := by
    simp only [otherBooks, List.forall_mem_cons]
    exact ⟨⟨_, rfl⟩, ⟨_, rfl⟩, ⟨_, rfl⟩, fun _ hmem => absurd hmem List.not_mem_nil⟩
  have houtline : (PrefetchPlan.build authorSchema ⟨1⟩ otherBooks authorJoined .empty
      [⟨["author", "id"], false⟩, ⟨["author", "books", "pages"], true⟩]).map (nodesOutline authorSchema) =
        .ok [⟨"author", "Book.author", true, []⟩, ⟨"author__books", "Author.books", false, ["-pages"]⟩] := by
    decide +kernel
  obtain ⟨plan, hplan, htree⟩ := build_isPrefixTree hpaths authorJoined .empty
    [⟨["author", "id"], false⟩, ⟨["author", "books", "pages"], true⟩]
  rw [hplan] at houtline
  exact ⟨hpaths, plan, hplan, Except.ok.inj houtline, htree⟩

end RelQuery
