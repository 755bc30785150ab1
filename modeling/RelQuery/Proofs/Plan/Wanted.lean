import RelQuery.Proofs.Engine.Slice
import RelQuery.Proofs.Join.Nodes
import RelQuery.Proofs.Plan.Bounds

/-!
# What a planned statement joins and selects

A path is joined because some relation is loaded along it, or because a filter or an ordering reads what it leads to.
Of the joined paths the tree has those that the projection does not leave out. The statement selects, of the root and of
the entity at every node, the columns that the projection shows there.
-/

namespace RelQuery

open Sql

variable {s : Schema}

/-- What a path is joined for. -/
inductive Request.Wants (r : Request) (s : Schema) (projection : Projection) (path : Path) : Prop where
  /-- Relations are loaded along a path that goes through it. -/
  | related {q : Path} (mem : q ∈ r.selectRelated) (kept : projection.excludesPath q = false)
      (through : path.segments <+: q.segments)
  /-- A condition reads what it leads to. -/
  | condition {filters : List BoundFilter} {f : BoundFilter} {c : BoundCond}
      (bound : s.bindFilters r.root r.filters = .ok filters) (mem : f ∈ filters) (cond : c ∈ f.conds)
      (through : path.segments <+: c.path.segments)
  /-- An ordering reads what it leads to. -/
  | ordering {o : OrderSpec} {b : BoundOrder} (mem : o ∈ r.orderBy) (bound : s.bindOrder r.root o = .ok b)
      (through : path.segments <+: b.path.segments)

theorem mem_paths_of_conds {f : BoundFilter} {q : Path} : q ∈ f.paths ↔ q ≠ .root ∧ ∃ c ∈ f.conds, c.path = q := by
  unfold BoundFilter.paths
  rw [mem_distinct, List.mem_filter, List.mem_map, Bool.not_eq_true', ← Bool.not_eq_true, Path.isRoot_iff]
  exact and_comm

/-- The paths that a bound request joins are the wanted ones. -/
theorem goThrough_reads_iff {r : Request} {b : BoundRequest} (h : r.bind s = .ok b) {path : Path} (hne : path ≠ .root) :
    goThrough (b.reads r) path = true ↔ r.Wants s b.projection path := by
  have hbound := boundFrom_of_bind h
  have horders := mapM_eq_ok.mp hbound.orders
  rw [goThrough_iff, BoundRequest.reads]
  simp only [List.mem_append, List.mem_filter, Bool.not_eq_true', List.mem_flatMap, List.mem_map]
  constructor
  · rintro ⟨q, ⟨hq, hkept⟩ | ⟨f, hf, hq⟩ | ⟨o, ho, rfl⟩, hpre⟩
    · exact .related hq hkept hpre
    · obtain ⟨-, c, hc, rfl⟩ := mem_paths_of_conds.mp hq
      exact .condition hbound.filters hf hc hpre
    · obtain ⟨spec, hspec, hbind⟩ := exists_of_mem_forall₂ horders ho
      exact .ordering hspec hbind hpre
  · rintro (⟨hq, hkept, hpre⟩ | ⟨hfilters, hf, hc, hpre⟩ | ⟨ho, hbind, hpre⟩)
    · exact ⟨_, .inl ⟨hq, hkept⟩, hpre⟩
    · obtain rfl := Except.ok.inj (hbound.filters.symm.trans hfilters)
      exact ⟨_, .inr (.inl ⟨_, hf, mem_paths_of_conds.mpr ⟨Path.ne_root_of_prefix hpre hne, _, hc, rfl⟩⟩), hpre⟩
    · obtain ⟨order, horder, hsame⟩ := exists_of_mem_forall₂ horders.flip ho
      obtain rfl := Except.ok.inj (hbind.symm.trans hsame)
      exact ⟨_, .inr (.inr ⟨_, horder, rfl⟩), hpre⟩

/-- The tree of a planned request has the wanted relations, and its statement selects their visible columns. -/
structure PlannedQuery.HoldsWanted (planned : PlannedQuery) (s : Schema) (r : Request) (aliases : AliasPlan) : Prop where
  projection : r.bindProjection s = .ok planned.projection
  root : planned.tree.root = r.root
  contains : ∀ path : Path, path ≠ .root → (planned.tree.contains path = true ↔
    r.Wants s planned.projection path ∧
      ∀ q : Path, q.segments <+: path.segments → planned.projection.excludesPath q = false)
  /-- The nodes are those of the paths that the tree contains, each once. -/
  paths : ∀ path : Path, path ∈ planned.tree.nodes.map (·.path) ↔ path ≠ .root ∧ planned.tree.contains path = true
  once : (planned.tree.nodes.map (·.path)).Nodup
  /-- A node is one relation further than what it is below. -/
  further : (∀ node ∈ planned.tree.children, node.path = Path.root.child node.name) ∧
    ∀ node ∈ planned.tree.nodes, ∀ child ∈ node.children, child.path = node.path.child child.name
  node : ∀ node ∈ planned.tree.nodes, ∃ t a, s.resolve r.root node.path = .ok t ∧
    t.lastHop? = some node.relation ∧ node.target = t.target ∧ aliases.get? node.path = some a ∧ node.table = a.target
  select : planned.query.select =
    shownItems (s.entity r.root).table (s.entity r.root) planned.projection id ++
      planned.tree.nodes.flatMap fun node =>
        shownItems node.table.text (s.entity node.target) (planned.projection.at_ node.path) node.table.label

section

variable {settings : Settings} {registry registry' : AliasRegistry} {r : Request} {planned : PlannedQuery}

/-- A planned tree comes from the paths that the bound request joins, with their aliases, and is what is selected. -/
theorem source_of_plan (h : r.plan s settings registry = (.ok planned, registry')) :
    ∃ bound aliases, r.bind s = .ok bound ∧
      AliasPlan.assign registry s (s.entity r.root).table bound.resolved = (.ok aliases, registry') ∧
      planned.projection = bound.projection ∧
      JoinSource.tree ⟨s, bound.resolved, aliases, bound.projection, r.partialPaths⟩ r.root = .ok planned.tree ∧
      planned.query.select = planned.tree.selectList (s.entity r.root).table := by
  obtain ⟨p, hp, hplan⟩ := planRequest_eq_ok.mp h
  obtain ⟨rfl, rfl, hbind, hassign, -⟩ := prepare_eq_ok.mp hp
  obtain ⟨-, -, -, htree, -, -, -, -⟩ := plan_eq_ok hplan
  exact ⟨p.bound, p.aliases, hbind, hassign, projection_of_plan hplan, htree, select_of_plan hplan⟩

/-- The columns in a planned tree are those that the projection shows of the root and at each node. -/
theorem selectedColumns_of_plan (h : r.plan s settings registry = (.ok planned, registry')) :
    planned.tree.columns = selectColumns (s.entity r.root) planned.projection none ∧
      ∀ node ∈ planned.tree.nodes,
        node.columns = selectColumns (s.entity node.target) (planned.projection.at_ node.path) (some node.table) := by
  obtain ⟨bound, aliases, hbind, -, hprojection, htree, -⟩ := source_of_plan h
  have hj := (boundFrom_of_bind hbind).joined
  rw [hprojection]
  refine ⟨(root_of_tree htree).2, fun node hnode => ?_⟩
  obtain ⟨parent, t, a, hstands⟩ := exists_stands_of_tree hj htree hnode
  obtain ⟨-, -, -, -, -, hown⟩ := hstands.holds hj
  exact hown

/-- The paths that a bound request joins and its projection keeps are those that are wanted and not left out. -/
theorem keeps_iff_of_bind {bound : BoundRequest} (h : r.bind s = .ok bound) {path : Path} (hne : path ≠ .root)
    {aliases : AliasPlan} :
    JoinSource.Keeps ⟨s, bound.resolved, aliases, bound.projection, r.partialPaths⟩ path ↔
      r.Wants s bound.projection path ∧
        ∀ q : Path, q.segments <+: path.segments → bound.projection.excludesPath q = false := by
  rw [← goThrough_reads_iff h hne, ← mem_joined_of_bind h hne]
  constructor
  · rintro ⟨t, ht, hpath, hkept⟩
    exact ⟨⟨t, ht, hpath⟩, fun q hpre => Projection.excludesPath_eq_false_of_isPrefix hkept hpre⟩
  · rintro ⟨⟨t, ht, hpath⟩, hkept⟩
    exact ⟨t, ht, hpath, hkept path List.prefix_rfl⟩

/-- A planned request joins what is wanted, and selects the columns of it that are visible. -/
theorem holdsWanted_of_plan (h : r.plan s settings registry = (.ok planned, registry')) :
    ∃ bound aliases, r.bind s = .ok bound ∧
      AliasPlan.assign registry s (s.entity r.root).table bound.resolved = (.ok aliases, registry') ∧
      planned.HoldsWanted s r aliases := by
  obtain ⟨bound, aliases, hbind, hassign, hprojection, htree, hselect⟩ := source_of_plan h
  have hj := (boundFrom_of_bind hbind).joined
  have hspan := nodesSpan_of_tree hj htree
  obtain ⟨hcolumns, hown⟩ := selectedColumns_of_plan h
  refine ⟨bound, aliases, hbind, hassign, ?_, (root_of_tree htree).1, fun path hne => ?_, fun path => ?_,
    nodup_paths_of_tree hj htree, ⟨fun node hnode => (hspan.below node hnode).path, fun node hnode child hchild => ?_⟩,
    fun node hnode => ?_, ?_⟩
  · rw [hprojection]
    exact bindProjection_of_bind hbind
  · rw [contains_iff_of_tree hj htree hne, hprojection]
    exact keeps_iff_of_bind hbind hne
  · rw [mem_paths_of_tree hj htree]
    constructor
    · intro hkeeps
      have hne : path ≠ .root := by
        obtain ⟨t, ht, rfl, -⟩ := hkeeps
        exact hj.ne_root t ht
      exact ⟨hne, (contains_iff_of_tree hj htree hne).mpr hkeeps⟩
    · rintro ⟨hne, hcontains⟩
      exact (contains_iff_of_tree hj htree hne).mp hcontains
  · obtain ⟨parent, hspans⟩ := hspan.of_mem hnode
    exact (hspans.children.below child hchild).path
  · obtain ⟨parent, t, a, hstands⟩ := exists_stands_of_tree hj htree hnode
    obtain ⟨hresolve, hrelation, htarget, hnamed, htable, -⟩ := hstands.holds hj
    exact ⟨t, a, hresolve, hrelation, htarget, hnamed, htable⟩
  · rw [hselect, JoinTree.selectList_eq_nodes, hcolumns, columnItems_root]
    refine congrArg (_ ++ ·) (List.flatMap_congr fun node hnode => ?_)
    rw [JoinNode.ownItems, hown node hnode, columnItems_joined]

end

/-- Books with their authors, of authors with some book from 1990. The books of the authors are left out. -/
def booksOfPeers : Request :=
  { root := ⟨1⟩, selectRelated := [⟨["author"]⟩], filters := [.lookup "author__books__year" (.scalar (.int 1990))]
    excludeFields := [.names ["author__books"]] }

/-- The condition joins the books of the authors, and the tree does without them. -/
theorem holdsWanted_booksOfPeers :
    ∃ planned registry' bound aliases,
      booksOfPeers.plan authorSchema {} (.empty 6) = (.ok planned, registry') ∧
        planned.tree.nodes.map (·.path) = [⟨["author"]⟩] ∧
        booksOfPeers.bind authorSchema = .ok bound ∧
        bound.resolved.map (·.path) = [⟨["author"]⟩, ⟨["author", "books"]⟩] ∧
        planned.HoldsWanted authorSchema booksOfPeers aliases := by
  have hnodes : (booksOfPeers.plan authorSchema {} (.empty 6)).1.map (fun planned => planned.tree.nodes.map (·.path)) =
      .ok [⟨["author"]⟩] := by
    decide +kernel
  have hjoined : (booksOfPeers.bind authorSchema).map (fun bound => bound.resolved.map (·.path)) =
      .ok [⟨["author"]⟩, ⟨["author", "books"]⟩] := by
    decide +kernel
  obtain ⟨planned, hok, hpaths⟩ := map_eq_ok.mp hnodes
  rcases hplan : booksOfPeers.plan authorSchema {} (.empty 6) with ⟨result, registry'⟩
  rw [hplan] at hok
  obtain rfl : result = .ok planned := hok
  obtain ⟨bound, aliases, hbind, -, hholds⟩ := holdsWanted_of_plan hplan
  rw [hbind] at hjoined
  exact ⟨planned, registry', bound, aliases, rfl, hpaths, hbind, Except.ok.inj hjoined, hholds⟩

end RelQuery
