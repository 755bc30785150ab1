import RelQuery.Proofs.Join.Scope
import RelQuery.Proofs.Plan
import RelQuery.Proofs.Prefetch.Orders
import RelQuery.Proofs.Projection.Keys
import RelQuery.Proofs.Schema.Mirror

/-!
# Keys of follow-up statements

Loaded instances are linked to their owners by keys, on both sides. Whatever a query set includes or leaves out, these
keys are selected, with one exception: where the relation from the loaded entity back to its owners is left out, a
follow-up statement that goes through a linking table does not show the owners.
-/

namespace RelQuery

variable {s : Schema} {root : EntityId}

/-! ### Keys that requests select -/

theorem Path.parent?_child (path : Path) (name : String) : (path.child name).parent? = some path := by
  simp [Path.parent?, Path.child, Path.isRoot]

/-- The steps of a path that resolves, each with its relation. -/
theorem mem_stepsAfter {name : String} {before more : List String} :
    ∀ {start mid target : EntityId} {parent : Path} {hops hops' : List RelationId} {id : RelationId},
      s.walk start (before ++ name :: more) = .ok (hops, target) → s.walk start before = .ok (hops', mid) →
        s.findRelation? mid name = some id →
          (Path.child ⟨parent.segments ++ before⟩ name, id) ∈ stepsAfter parent (before ++ name :: more) hops := by
  induction before with
  | nil =>
    intro start mid target parent hops hops' id hwalk hbefore hid
    cases hbefore
    obtain ⟨first, rest, hfirst, -, rfl⟩ := walk_cons.mp hwalk
    obtain rfl := Option.some.inj (hfirst.symm.trans hid)
    simp [stepsAfter, Path.child]
  | cons segment before ih =>
    intro start mid target parent hops hops' id hwalk hbefore hid
    obtain ⟨first, rest, hfirst, htail, rfl⟩ := walk_cons.mp hwalk
    obtain ⟨first', rest', hfirst', hrest, rfl⟩ := walk_cons.mp hbefore
    obtain rfl := Option.some.inj (hfirst.symm.trans hfirst')
    have hmem := @ih _ _ _ (parent.child segment) _ _ _ htail hrest hid
    rw [List.cons_append, stepsAfter]
    refine List.mem_cons_of_mem _ ?_
    rwa [show (parent.child segment).segments ++ before = parent.segments ++ segment :: before by simp [Path.child]]
      at hmem

/-- Loading along paths requires the foreign keys of the relations that they go through. -/
theorem mem_requiredKeys {paths : List Path} {path : Path} {r : ResolvedPath} (hpath : path ∈ paths)
    (hr : s.resolve root path = .ok r) {parent : Path} {hops : List RelationId} {mid : EntityId}
    (hparent : s.walk root parent.segments = .ok (hops, mid)) {name : String} {id : RelationId}
    (hid : s.findRelation? mid name = some id) (hpre : (parent.child name).segments <+: path.segments) {key : String}
    (hlink : (s.relation id).link = .foreignKey key) : (parent, key) ∈ PrefetchPlan.requiredKeys s root paths := by
  obtain ⟨rfl, hresolves⟩ := resolve_eq_ok.mp hr
  obtain ⟨more, hmore⟩ := hpre
  have hsegments : r.path.segments = parent.segments ++ name :: more := by
    rw [← hmore, Path.child, List.append_assoc, List.singleton_append]
  have hstep : (parent.child name, id) ∈ r.steps := by
    unfold ResolvedPath.Resolves at hresolves
    rw [hsegments] at hresolves
    rw [steps_eq, hsegments]
    exact mem_stepsAfter hresolves hparent hid
  unfold PrefetchPlan.requiredKeys
  refine mem_distinct.mpr (List.mem_flatMap.mpr ⟨r.path, hpath, ?_⟩)
  rw [hr]
  refine List.mem_filterMap.mpr ⟨_, hstep, ?_⟩
  simp only [hlink, Path.parent?_child, Option.getD_some]

/-- The columns that are selected for what a path leads to, from a node with these columns and children. -/
def columnsAlong (columns : List SelectedColumn) (nodes : List JoinNode) : List String → Option (List SelectedColumn)
  | [] => some columns
  | name :: rest =>
    match nodes.find? (·.name == name) with
    | some node => columnsAlong node.columns node.children rest
    | none => none

def JoinTree.columnsAt? (t : JoinTree) (path : Path) : Option (List SelectedColumn) :=
  columnsAlong t.columns t.children path.segments

theorem isSome_columnsAlong (columns : List SelectedColumn) (nodes : List JoinNode) (names : List String) :
    (columnsAlong columns nodes names).isSome = nodesContain nodes names := by
  induction names generalizing columns nodes with
  | nil => rfl
  | cons name rest ih =>
    rw [columnsAlong, nodesContain]
    cases nodes.find? (·.name == name) with
    | none => rfl
    | some node => exact ih node.columns node.children

theorem isSome_columnsAt? (t : JoinTree) (path : Path) : (t.columnsAt? path).isSome = t.contains path :=
  isSome_columnsAlong ..

/-- The columns of joined instances are those that the projection shows at their path. -/
theorem columns_of_columnsAlong {src : JoinSource} (hj : JoinedPaths src.schema root src.resolved) {names : List String} :
    ∀ {levels : Nat} {parent : Path} {nodes : List JoinNode} {own columns : List SelectedColumn},
      src.nodesBelow levels parent = .ok nodes → columnsAlong own nodes names = some columns →
        names = [] ∧ columns = own ∨
          ∃ r ∈ src.resolved, ∃ table, r.path = ⟨parent.segments ++ names⟩ ∧
            columns = selectColumns (src.schema.entity r.target) (src.projection.at_ r.path) table := by
  induction names with
  | nil => exact fun _ h => .inl ⟨rfl, (Option.some.inj h).symm⟩
  | cons name rest ih =>
    intro levels parent nodes own columns hnodes h
    rw [columnsAlong] at h
    rcases hfind : nodes.find? (·.name == name) with - | node
    · rw [hfind] at h
      cases h
    · rw [hfind] at h
      have hmem := List.mem_of_find?_eq_some hfind
      cases levels with
      | zero =>
        cases hnodes
        cases hmem
      | succ levels =>
        obtain ⟨r, hr, a, children, -, hchildren, rfl⟩ := exists_of_mem_forall₂ (forall₂_of_nodesBelow hnodes) hmem
        obtain ⟨hr, last, hlast⟩ := segments_of_mem_stepsFrom (List.mem_filter.mp hr).1
        have hnamed := List.find?_some hfind
        have hname : last = name := (name_of_resolves (hj.resolves r hr) hlast).symm.trans (eq_of_beq hnamed)
        rw [hname] at hlast
        right
        rcases ih hchildren h with ⟨rfl, rfl⟩ | ⟨t, ht, table, hpath, hcolumns⟩
        · exact ⟨r, hr, some a.target, congrArg Path.mk hlast, rfl⟩
        · refine ⟨t, ht, table, ?_, hcolumns⟩
          rw [hpath, hlast, List.append_assoc, List.singleton_append]

/-- A joined relation of the root has a node if the projection keeps it. -/
theorem exists_child_of_tree {src : JoinSource} (hj : JoinedPaths src.schema root src.resolved) {tree : JoinTree}
    (h : src.tree root = .ok tree) {t : ResolvedPath} (ht : t ∈ src.resolved) {name : String}
    (hpath : t.path = ⟨[name]⟩) (hkept : src.projection.excludesPath t.path = false) :
    ∃ child ∈ tree.children, child.name = name ∧ child.path = t.path ∧ child.target = t.target ∧
      child.toMany = (t.relation src.schema).isToMany ∧ ∃ table, child.columns =
        selectColumns (src.schema.entity t.target) (src.projection.at_ t.path) (some table) := by
  obtain ⟨children, hchildren, rfl⟩ := map_eq_ok.mp h
  have hlong : t.path.length ≤ src.levels := (le_foldl_max (fun r : ResolvedPath => r.path.length) src.resolved 0).2 t ht
  obtain ⟨levels, hlevels⟩ : ∃ levels, src.levels = levels + 1 := by
    refine ⟨src.levels - 1, ?_⟩
    rw [hpath] at hlong
    exact (Nat.sub_add_cancel hlong).symm
  rw [hlevels] at hchildren
  have hbelow : t.path = Path.root.child name := hpath
  obtain ⟨a, below, -, hname, hchild⟩ := exists_node_of_nodesBelow hj hchildren ht hbelow hkept
  exact ⟨_, hchild, hname, rfl, rfl, rfl, a, rfl⟩

theorem any_field_of_hasField {e : Entity} {field : String} (h : e.hasField field = true) {p : Projection}
    (hincluded : p.isIncluded field = true) (table : Option Alias) :
    (selectColumns e p table).any (·.field == field) = true := by
  obtain ⟨c, hc⟩ := Option.isSome_iff_exists.mp h
  obtain rfl := name_of_column? hc
  exact any_field_selectColumns (List.mem_of_find?_eq_some hc) hincluded

section

variable {settings : Settings} {registry registry' : AliasRegistry} {r : Request} {planned : PlannedQuery}

theorem bound_of_plan (h : r.plan s settings registry = (.ok planned, registry')) :
    ∃ p : Prepared, PreparedFrom s registry r p ∧ r.bind s = .ok p.bound ∧ p.tree = .ok planned.tree ∧
      planned.projection = p.bound.projection := by
  obtain ⟨p, hp, hok⟩ := planRequest_eq_ok.mp h
  obtain ⟨-, -, -, htree, -⟩ := plan_eq_ok hok
  exact ⟨p, preparedFrom_of_prepare hp, bind_of_prepare hp, htree, projection_of_plan hok⟩

theorem keysMarked_of_plan (h : r.plan s settings registry = (.ok planned, registry'))
    (hr : r.projection.KeysMarked s r.root) : planned.projection.KeysMarked s r.root := by
  obtain ⟨p, -, hbind, -, hprojection⟩ := bound_of_plan h
  rw [hprojection]
  exact hr.bindProjection (bindProjection_of_bind hbind)

theorem columns_of_plan (h : r.plan s settings registry = (.ok planned, registry')) :
    planned.tree.columns = selectColumns (s.entity r.root) planned.projection none := by
  obtain ⟨p, hp, -, htree, hprojection⟩ := bound_of_plan h
  rw [hprojection]
  exact (planned_of_tree hp htree).2.1

theorem selected_of_required (h : r.plan s settings registry = (.ok planned, registry')) {field : String}
    (hfield : (s.entity r.root).hasField field = true) (hrequired : (.root, field) ∈ r.required) :
    planned.tree.columns.any (·.field == field) = true := by
  obtain ⟨p, -, hbind, -, hprojection⟩ := bound_of_plan h
  rw [columns_of_plan h]
  refine any_field_of_hasField hfield ?_ none
  rw [hprojection]
  exact Projection.isIncluded_of_mem (mem_marks_of_required (bindProjection_of_bind hbind) hrequired)

/-- A required field is selected for what its path leads to, where the statement loads that. -/
theorem selected_of_required_at (h : r.plan s settings registry = (.ok planned, registry')) {path : Path}
    {hops : List RelationId} {target : EntityId} (hpath : s.walk r.root path.segments = .ok (hops, target))
    {field : String} (hfield : (s.entity target).hasField field = true) (hrequired : (path, field) ∈ r.required)
    {columns : List SelectedColumn} (hcolumns : planned.tree.columnsAt? path = some columns) :
    columns.any (·.field == field) = true := by
  obtain ⟨p, hp, hbind, htree, -⟩ := bound_of_plan h
  have hincluded : (p.bound.projection.at_ path).isIncluded field = true :=
    Projection.isIncluded_of_mem (mem_marks_of_required (bindProjection_of_bind hbind) hrequired)
  obtain ⟨rfl, rfl, hbound, -, -⟩ := hp
  unfold Prepared.tree JoinSource.tree at htree
  obtain ⟨children, hchildren, htree⟩ := map_eq_ok.mp htree
  rw [← htree, JoinTree.columnsAt?] at hcolumns
  rcases columns_of_columnsAlong hbound.joined hchildren hcolumns with ⟨hnil, rfl⟩ | ⟨t, ht, table, htpath, rfl⟩
  · obtain rfl : path = .root := congrArg Path.mk hnil
    cases hpath
    exact any_field_of_hasField hfield hincluded none
  · obtain rfl : t.path = path := htpath
    have hwalk : p.schema.walk p.request.root t.path.segments = .ok (t.hops, t.target) := hbound.joined.resolves t ht
    rw [hpath] at hwalk
    obtain ⟨-, rfl⟩ := Prod.mk.inj (Except.ok.inj hwalk)
    exact any_field_of_hasField hfield hincluded table

/-- A relation that is loaded along and that the projection keeps is shown with the primary keys of its instances. -/
theorem child_of_related (hs : s.WellFormed) (h : r.plan s settings registry = (.ok planned, registry'))
    (hkeys : planned.projection.KeysMarked s r.root) {name : String} (hrelated : ⟨[name]⟩ ∈ r.selectRelated)
    (hkept : planned.projection.excludesPath ⟨[name]⟩ = false) {id : RelationId}
    (hid : s.findRelation? r.root name = some id) :
    ∃ child ∈ planned.tree.children, child.name = name ∧ child.target = (s.relation id).target ∧
      child.columns.any (·.field == (s.entity (s.relation id).target).pk) = true := by
  obtain ⟨p, hp, hbind, htree, hprojection⟩ := bound_of_plan h
  rw [hprojection] at hkept hkeys
  obtain ⟨t, ht, htpath⟩ := related_joined_of_bind hbind hrelated (by simp [Path.root]) hkept
  obtain ⟨rfl, rfl, hbound, -, -⟩ := hp
  have hwalk : p.schema.walk p.request.root [name] = .ok ([id], (p.schema.relation id).target) :=
    walk_cons.mpr ⟨id, [], hid, rfl, rfl⟩
  have htarget : t.target = (p.schema.relation id).target := by
    have hresolves : p.schema.walk p.request.root t.path.segments = .ok (t.hops, t.target) := hbound.joined.resolves t ht
    rw [htpath, hwalk] at hresolves
    exact (Prod.mk.inj (Except.ok.inj hresolves)).2.symm
  rw [← htpath] at hkept
  obtain ⟨child, hchild, hname, -, hchildTarget, -, table, hcolumns⟩ :=
    exists_child_of_tree hbound.joined htree ht htpath hkept
  refine ⟨child, hchild, hname, hchildTarget.trans htarget, ?_⟩
  obtain ⟨hmem, -, -⟩ := relation_of_findRelation? hid
  have hfield := hs.hasField_pk (hs.targets _ hmem)
  rw [hcolumns, htarget, htpath]
  exact any_field_of_hasField hfield (hkeys.at_ hwalk).isIncluded (some table)

end

/-! ### Follow-up requests -/

theorem childRequest_spec (s : Schema) (r : Relation) (projection : Projection) (orderBy : List OrderSpec)
    (childPaths : List Path) (keys : List Value) :
    (childRequest s r projection orderBy childPaths keys).root = r.target ∧
      (childRequest s r projection orderBy childPaths keys).projection = projection ∧
      (childRequest s r projection orderBy childPaths keys).excludeFields = [] ∧
      PrefetchPlan.requiredKeys s r.target childPaths ⊆
        (childRequest s r projection orderBy childPaths keys).required := by
  unfold childRequest
  split
  · exact ⟨rfl, rfl, rfl, fun _ h => h⟩
  · exact ⟨rfl, rfl, rfl, List.subset_append_left _ _⟩
  · exact ⟨rfl, rfl, rfl, fun _ h => h⟩

theorem PrefetchNode.request_spec (s : Schema) (node : PrefetchNode) (keys : List Value) :
    (node.request s keys).root = (s.relation node.relation).target ∧
      (node.request s keys).projection = node.projection ∧ (node.request s keys).excludeFields = [] ∧
      PrefetchPlan.requiredKeys s (s.relation node.relation).target
        (node.children.map fun c => (node.path.stripFrom? c.path).getD .root) ⊆ (node.request s keys).required :=
  childRequest_spec s (s.relation node.relation) node.projection node.orderBy _ keys

/-- The columns by which instances loaded along a relation are linked to their owners are selected: the primary key of
the instances, their foreign key, or the primary key of the owners that are shown with them. -/
def Relation.KeySelected (s : Schema) (r : Relation) (tree : JoinTree) : Prop :=
  match r.link with
  | .foreignKey _ => tree.columns.any (·.field == (s.entity r.target).pk) = true
  | .reverseForeignKey key => tree.columns.any (·.field == key) = true
  | .manyToMany .. =>
    ∃ owners ∈ tree.children, owners.name = s.mirrorName r ∧ owners.target = r.owner ∧
      owners.columns.any (·.field == (s.entity r.owner).pk) = true

/-- A relation whose instances are linked through a table and show their owners, unless the projection leaves these
out. -/
def Relation.ShowsOwners (s : Schema) (r : Relation) (p : Projection) : Prop :=
  r.isManyToMany = true → p.excludesRelation (s.mirrorName r) = false

section

variable {tree : JoinTree} {projection : Projection} {paths : List Path} {parent : Path} {id : EntityId}
  {node : PrefetchNode} {settings : Settings} {registry registry' : AliasRegistry} {planned : PlannedQuery}

theorem keySelected_of_follows (hs : s.WellFormed) (hlinked : s.Linked)
    (hnode : node.Follows s tree projection parent id)
    (hkeys : node.projection.KeysMarked s (s.relation node.relation).target)
    (hshows : (s.relation node.relation).ShowsOwners s node.projection) (keys : List Value)
    (h : (node.request s keys).plan s settings registry = (.ok planned, registry')) :
    (s.relation node.relation).KeySelected s planned.tree := by
  obtain ⟨hmem, howner, -⟩ := relation_of_findRelation? hnode.found
  obtain ⟨hroot, hprojection, hexcludes, -⟩ := node.request_spec s keys
  have hmarked : planned.projection.KeysMarked s (node.request s keys).root := by
    refine keysMarked_of_plan h ?_
    rw [hroot, hprojection]
    exact hkeys
  have hcolumns := columns_of_plan h
  have hfits := hs.links _ hmem
  unfold Relation.KeySelected
  unfold Relation.ShowsOwners Relation.isManyToMany at hshows
  unfold Link.Fits at hfits
  -- where the keys of the owners are read depends on which side holds them: the target's own key,
  -- a column of the target, or a joined row of the mirror
  split
  case h_1 key hlink =>
    rw [hcolumns, hroot]
    rw [hroot] at hmarked
    exact any_field_of_hasField (hs.hasField_pk (hs.targets _ hmem)) hmarked.isIncluded none
  case h_2 key hlink =>
    rw [hlink] at hfits
    refine selected_of_required h (by rwa [hroot]) ?_
    unfold PrefetchNode.request childRequest
    rw [hlink]
    exact List.mem_append_right _ (List.mem_singleton_self _)
  case h_3 through ownerKey targetKey hlink =>
    obtain ⟨hfound, hmirror, -⟩ := hlinked.find_mirror hmem
    have hkept : planned.projection.excludesPath ⟨[s.mirrorName (s.relation node.relation)]⟩ = false := by
      obtain ⟨p, -, hbind, -, hbound⟩ := bound_of_plan h
      have hnothing := excludesRelation_of_bindProjection (bindProjection_of_bind hbind) hexcludes
      rw [hbound, Projection.excludesPath, Projection.excludesSegments, hnothing, hprojection]
      rw [hlink] at hshows
      rw [hshows rfl]
      rfl
    have hrelated : ⟨[s.mirrorName (s.relation node.relation)]⟩ ∈ (node.request s keys).selectRelated := by
      unfold PrefetchNode.request childRequest
      rw [hlink]
      exact List.mem_singleton_self _
    rw [← hroot] at hfound
    obtain ⟨child, hchild, hname, htarget, hpk⟩ := child_of_related hs h hmarked hrelated hkept hfound
    rw [hmirror.target] at htarget hpk
    exact ⟨child, hchild, hname, htarget, hpk⟩

/-- A follow-up statement selects the foreign keys of what is loaded below it. -/
theorem foreignKeys_of_covers (hs : s.WellFormed) (hnode : node.Covers s tree projection paths parent id)
    (keys : List Value) (h : (node.request s keys).plan s settings registry = (.ok planned, registry')) :
    ∀ below ∈ node.children, ∀ key, (s.relation below.relation).link = .foreignKey key →
      planned.tree.columns.any (·.field == key) = true := by
  intro below hbelow key hlink
  have hfollows := (hnode.children.below below hbelow).follows
  obtain ⟨hmem, howner, -⟩ := relation_of_findRelation? hfollows.found
  obtain ⟨hroot, -, -, hrequired⟩ := node.request_spec s keys
  have hpath : (node.path.stripFrom? below.path).getD .root = ⟨[below.name]⟩ := by
    have hpre : node.path.isPrefixOf below.path = true := by
      rw [hfollows.path]
      exact Path.isPrefixOf_iff.mpr (List.prefix_append _ _)
    rw [Path.stripFrom?, if_pos hpre, Option.getD_some, hfollows.path, Path.child, Path.length, List.drop_left]
  have hlisted : (⟨[below.name]⟩ : Path) ∈ node.children.map fun c => (node.path.stripFrom? c.path).getD .root :=
    List.mem_map.mpr ⟨below, hbelow, hpath⟩
  have hresolve : s.resolve (s.relation node.relation).target ⟨[below.name]⟩ =
      .ok ⟨⟨[below.name]⟩, [below.relation], (s.relation below.relation).target⟩ :=
    resolve_eq_ok.mpr ⟨rfl, walk_cons.mpr ⟨below.relation, [], hfollows.found, rfl, rfl⟩⟩
  have hkey : (.root, key) ∈ PrefetchPlan.requiredKeys s (s.relation node.relation).target _ :=
    mem_requiredKeys hlisted hresolve rfl hfollows.found List.prefix_rfl hlink
  have hfits := hs.links _ hmem
  rw [hlink, Link.Fits, howner] at hfits
  exact selected_of_required h (by rwa [hroot]) (hrequired hkey)

/-- The statement that loads the owners of a relation selects the foreign keys that loading the relation reads, where
it is the main statement. -/
theorem foreignKey_of_plan (hs : s.WellFormed) {q : QuerySet}
    (h : (q.mainRequest s).plan s settings registry = (.ok planned, registry'))
    (hpaths : ∀ path ∈ q.prefetchRelated, ∃ r, s.resolve q.root path = .ok r) {hops : List RelationId}
    (hparent : s.walk q.root parent.segments = .ok (hops, id)) (hnode : node.Follows s tree projection parent id)
    (hthrough : goThrough q.prefetchRelated node.path = true) {key : String}
    (hlink : (s.relation node.relation).link = .foreignKey key) {columns : List SelectedColumn}
    (hcolumns : planned.tree.columnsAt? parent = some columns) : columns.any (·.field == key) = true := by
  obtain ⟨hmem, howner, -⟩ := relation_of_findRelation? hnode.found
  obtain ⟨path, hpath, hpre⟩ := goThrough_iff.mp hthrough
  obtain ⟨r, hr⟩ := hpaths path hpath
  rw [hnode.path] at hpre
  have hkey := mem_requiredKeys hpath hr hparent hnode.found hpre hlink
  have hfits := hs.links _ hmem
  rw [hlink, Link.Fits, howner] at hfits
  exact selected_of_required_at h hparent hfits hkey hcolumns

end

theorem goThrough_of_keptPaths {projection : Projection} {paths : List Path} {path : Path}
    (h : goThrough (PrefetchPlan.keptPaths projection paths) path = true) : goThrough paths path = true := by
  obtain ⟨q, hq, hpre⟩ := goThrough_iff.mp h
  exact goThrough_iff.mpr ⟨q, (List.mem_filter.mp hq).1, hpre⟩

theorem goThrough_keptPaths {projection : Projection} (hwhole : projection.OnlyRequires) {paths : List Path}
    {path : Path} (hne : path ≠ .root) : goThrough (PrefetchPlan.keptPaths projection paths) path = goThrough paths path := by
  refine Bool.eq_iff_iff.mpr ⟨goThrough_of_keptPaths, fun h => ?_⟩
  obtain ⟨q, hq, hpre⟩ := goThrough_iff.mp h
  refine goThrough_iff.mpr ⟨q, List.mem_filter.mpr ⟨hq, ?_⟩, hpre⟩
  have hroot : q.isRoot = false := Bool.eq_false_iff.mpr fun hroot =>
    Path.ne_root_of_prefix hpre hne (Path.isRoot_iff.mp hroot)
  rw [hroot, hwhole.excludesPath]
  rfl

/-- Whatever a query set includes or leaves out, what links loaded instances to their owners is selected on both
sides: on the side of the owners the foreign key, by the main statement if that loads them and else by the follow-up
statement that does; on the other side the key of the relation, unless the projection leaves the owners out. -/
theorem keys_selected {entities : List EntityDecl} {relations : List RelationDecl}
    (hbuild : Schema.build entities relations = .ok s) {q : QuerySet} {request : Request} {later : List OrderSpec}
    (hrequest : q.request s = .ok (request, later)) {settings : Settings} {registry registry' : AliasRegistry}
    {planned : PlannedQuery} (hplanned : request.plan s settings registry = (.ok planned, registry'))
    {plan : PrefetchPlan} (hplan : QuerySet.prefetchPlan s request planned later = .ok plan) :
    ∀ node ∈ nodesListed plan,
      (∀ key, (s.relation node.relation).link = .foreignKey key →
        ∃ parent : Path, node.path = parent.child node.name ∧ (planned.tree.contains parent = true →
          ∃ columns, planned.tree.columnsAt? parent = some columns ∧ columns.any (·.field == key) = true)) ∧
      ∀ keys settings registry child registry',
        (node.request s keys).plan s settings registry = (.ok child, registry') →
          ((s.relation node.relation).ShowsOwners s node.projection →
            (s.relation node.relation).KeySelected s child.tree) ∧
          ∀ below ∈ node.children, ∀ key, (s.relation below.relation).link = .foreignKey key →
            child.tree.columns.any (·.field == key) = true := by
  have hs := wellFormed_build hbuild
  obtain ⟨hpaths, rfl, rfl⟩ := QuerySet.request_eq_ok hrequest
  have hcover := nodesCover_build hplan
  have hmarked : planned.projection.KeysMarked s q.root := keysMarked_of_plan hplanned .empty
  intro node hnode
  obtain ⟨parent, id, hops, hparent, hcovers⟩ := hcover.of_mem_listed hnode
  have hfollows := hcovers.follows
  have hnodeWalk : s.walk q.root node.path.segments =
      .ok (hops ++ [node.relation], (s.relation node.relation).target) := by
    rw [hfollows.path]
    exact walk_concat.mpr ⟨hops, id, node.relation, hparent, hfollows.found, rfl, rfl⟩
  have hprojection : node.projection.KeysMarked s (s.relation node.relation).target := by
    rw [hfollows.shows]
    exact hmarked.at_ hnodeWalk
  refine ⟨fun key hlink => ⟨parent, hfollows.path, fun hjoined => ?_⟩, fun keys _ _ child _ hchild => ⟨?_, ?_⟩⟩
  · have hthrough := goThrough_of_keptPaths (hcover.goThrough_listed hnode)
    rw [← isSome_columnsAt?] at hjoined
    obtain ⟨columns, hcolumns⟩ := Option.isSome_iff_exists.mp hjoined
    exact ⟨columns, hcolumns, foreignKey_of_plan hs hplanned hpaths hparent hfollows hthrough hlink hcolumns⟩
  · exact fun hshows => keySelected_of_follows hs (linked_build hbuild) hfollows hprojection hshows keys hchild
  · exact foreignKeys_of_covers hs hcovers keys hchild

/-- The nodes of the plan of a query set, each with the plan of its request for some keys. -/
def QuerySet.followUps (q : QuerySet) (s : Schema) (registry : AliasRegistry) (keys : List Value) :
    Except NoResult (List (PrefetchNode × PlannedQuery)) := do
  let (request, later) ← NoResult.lift (q.request s)
  let planned ← (request.plan s {} registry).1
  let plan ← NoResult.lift (prefetchPlan s request planned later)
  (nodesListed plan).mapM fun node => ((node.request s keys).plan s {} registry).1.map fun child => (node, child)

theorem followUps_eq_ok {q : QuerySet} {registry : AliasRegistry} {keys : List Value}
    {found : List (PrefetchNode × PlannedQuery)} (h : q.followUps s registry keys = .ok found) :
    ∃ request later planned plan, q.request s = .ok (request, later) ∧
      (request.plan s {} registry).1 = .ok planned ∧ QuerySet.prefetchPlan s request planned later = .ok plan ∧
      ∀ entry ∈ found, entry.1 ∈ nodesListed plan ∧ ((entry.1.request s keys).plan s {} registry).1 = .ok entry.2 := by
  obtain ⟨⟨request, later⟩, hrequest, h⟩ := bind_eq_ok.mp h
  obtain ⟨planned, hplanned, h⟩ := bind_eq_ok.mp h
  obtain ⟨plan, hplan, h⟩ := bind_eq_ok.mp h
  refine ⟨request, later, planned, plan, NoResult.lift_eq_ok.mp hrequest, hplanned, NoResult.lift_eq_ok.mp hplan,
    fun entry hentry => ?_⟩
  obtain ⟨node, hnode, hchild⟩ := exists_of_mem_forall₂ (mapM_eq_ok.mp h) hentry
  obtain ⟨child, hok, rfl⟩ := map_eq_ok.mp hchild
  exact ⟨hnode, hok⟩

def tagOwnersRegistry : AliasRegistry :=
  ⟨6, [(.through "tags" "books", ⟨"7a9e01"⟩), (.edge "tags" "books", ⟨"45cc34"⟩)]⟩

/-- The books, with the tags of each, without what the selection names. -/
def booksWithTags (leftOut : List String) : QuerySet :=
  { root := ⟨0⟩, prefetchRelated := [⟨["tags"]⟩], excludeFields := [.names leftOut] }

theorem keys_selected_tagged :
    Schema.build taggedEntities taggedRelations = .ok taggedSchema ∧
      ∃ request later planned plan node child,
        (booksWithTags ["tags__name"]).request taggedSchema = .ok (request, later) ∧
          (request.plan taggedSchema {} tagOwnersRegistry).1 = .ok planned ∧
          QuerySet.prefetchPlan taggedSchema request planned later = .ok plan ∧ node ∈ nodesListed plan ∧
          ((node.request taggedSchema [.int 1]).plan taggedSchema {} tagOwnersRegistry).1 = .ok child ∧
          (taggedSchema.relation node.relation).isManyToMany = true ∧
          (taggedSchema.relation node.relation).KeySelected taggedSchema child.tree := by
  have hbuild : Schema.build taggedEntities taggedRelations = .ok taggedSchema := by rfl
  have hfound : ((booksWithTags ["tags__name"]).followUps taggedSchema tagOwnersRegistry [.int 1]).map
      (fun found => found.map fun entry => (entry.1.relation, entry.1.projection.excludesRelation "books")) =
      .ok [(⟨0⟩, false)] := by decide +kernel
  obtain ⟨found, hfound, hentries⟩ := map_eq_ok.mp hfound
  obtain ⟨request, later, planned, plan, hrequest, hplanned, hplan, hchildren⟩ := followUps_eq_ok hfound
  obtain ⟨⟨node, child⟩, rfl, he⟩ := List.map_eq_singleton_iff.mp hentries
  obtain ⟨hrelation, hshows⟩ := Prod.mk.inj he
  obtain ⟨hnode, hchild⟩ := hchildren _ (List.mem_singleton_self _)
  dsimp only at hrelation hshows hnode hchild
  have hselected := ((keys_selected hbuild hrequest (Prod.ext hplanned rfl) hplan node hnode).2 [.int 1] {}
    tagOwnersRegistry child _ (Prod.ext hchild rfl)).1
  rw [hrelation] at hselected
  refine ⟨hbuild, request, later, planned, plan, node, child, hrequest, hplanned, hplan, hnode, hchild, ?_, ?_⟩
  · rw [hrelation]
    rfl
  · rw [hrelation]
    exact hselected fun _ => hshows

/-- Without the books of the tags, the statement that loads the tags does not show the books it links them to. -/
theorem owners_not_selected :
    Schema.build taggedEntities taggedRelations = .ok taggedSchema ∧
      ∃ request later planned plan node child,
        (booksWithTags ["tags__books"]).request taggedSchema = .ok (request, later) ∧
          (request.plan taggedSchema {} tagOwnersRegistry).1 = .ok planned ∧
          QuerySet.prefetchPlan taggedSchema request planned later = .ok plan ∧ node ∈ nodesListed plan ∧ node.isJoined = false ∧
          ((node.request taggedSchema [.int 1]).plan taggedSchema {} tagOwnersRegistry).1 = .ok child ∧
          (taggedSchema.relation node.relation).isManyToMany = true ∧ child.tree.children = [] ∧
          ¬(taggedSchema.relation node.relation).KeySelected taggedSchema child.tree := by
  have hbuild : Schema.build taggedEntities taggedRelations = .ok taggedSchema := by rfl
  have hfound : ((booksWithTags ["tags__books"]).followUps taggedSchema tagOwnersRegistry [.int 1]).map
      (fun found => found.map fun entry => (entry.1.relation, entry.1.isJoined, entry.2.tree.children.length)) =
      .ok [(⟨0⟩, false, 0)] := by decide +kernel
  obtain ⟨found, hfound, hentries⟩ := map_eq_ok.mp hfound
  obtain ⟨request, later, planned, plan, hrequest, hplanned, hplan, hchildren⟩ := followUps_eq_ok hfound
  obtain ⟨⟨node, child⟩, rfl, he⟩ := List.map_eq_singleton_iff.mp hentries
  obtain ⟨hrelation, he⟩ := Prod.mk.inj he
  obtain ⟨hpending, hlength⟩ := Prod.mk.inj he
  obtain ⟨hnode, hchild⟩ := hchildren _ (List.mem_singleton_self _)
  dsimp only at hrelation hpending hlength hnode hchild
  have hnone : child.tree.children = [] := List.length_eq_zero_iff.mp hlength
  refine ⟨hbuild, request, later, planned, plan, node, child, hrequest, hplanned, hplan, hnode, hpending, hchild, ?_,
    hnone, ?_⟩
  · rw [hrelation]
    rfl
  · rw [hrelation]
    rintro ⟨owners, howners, -⟩
    rw [hnone] at howners
    cases howners

end RelQuery
