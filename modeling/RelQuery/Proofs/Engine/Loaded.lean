import RelQuery.Proofs.Engine.Fetch
import RelQuery.Proofs.Plan.Spans
import RelQuery.Proofs.Rows.Gather

/-!
# Loading along paths

What loading along paths means, told without statements: an instance has all its fields and, under the name of each
relation that a path goes on by, the instances of the rows that the relation links, in the order of their primary keys,
loaded along the rest of the paths. Joining the paths loads just that.
-/

namespace RelQuery

open Sql

variable {sv : Server} {db : Database} {s : Schema} {p : Prepared}

/-- The columns select all fields of the entity. -/
def Entity.SelectsAll (e : Entity) (columns : List SelectedColumn) : Prop :=
  ∀ field, columns.any (·.field == field) = e.columns.any (·.name == field)

theorem selectsAll_selectColumns {e : Entity} {projection : Projection} (h : ∀ field, projection.isIncluded field = true)
    (table : Option Alias) : e.SelectsAll (selectColumns e projection table) := by
  intro field
  unfold selectColumns Projection.visibleColumns
  rw [List.any_map, List.filter_eq_self.mpr fun c _ => h c.name]
  rfl

def Entity.allColumns (e : Entity) : List SelectedColumn := selectColumns e .empty none

/-- The instance of a row, with all fields. -/
def Schema.whole (s : Schema) (id : EntityId) (r : Record) : Instance := instanceOf s id (s.entity id).allColumns r

/-- The instance of a row, with all fields, the given relations, and stubs for other foreign keys. -/
def Schema.having (s : Schema) (id : EntityId) (r : Record) (joined : List (String × Related)) : Instance :=
  (s.whole id r).loading s (s.entity id).allColumns joined

theorem selectsAll_allColumns (e : Entity) : e.SelectsAll e.allColumns :=
  selectsAll_selectColumns (fun field => Projection.OnlyRequires.empty.isIncluded field) none

/-- Whichever columns select all fields, the instance is the same. -/
theorem loading_eq_having {id : EntityId} {columns : List SelectedColumn} (h : (s.entity id).SelectsAll columns)
    (r : Record) (joined : List (String × Related)) :
    (instanceOf s id columns r).loading s columns joined = s.having id r joined := by
  have hany : ∀ field, columns.any (·.field == field) = (s.entity id).allColumns.any (·.field == field) := fun field =>
    (h field).trans (selectsAll_allColumns (s.entity id) field).symm
  have hinstance : instanceOf s id columns r = s.whole id r := by
    unfold Schema.whole instanceOf Entity.fieldsOf
    simp only [hany]
  have hstubs : ∀ i : Instance, stubsOf s columns i = stubsOf s (s.entity id).allColumns i := by
    intro i
    unfold stubsOf Relation.stub?
    simp only [hany]
  unfold Schema.having Instance.loading
  rw [hinstance, hstubs]

theorem any_pk_of_selectsAll {e : Entity} (hpk : e.hasField e.pk = true) {columns : List SelectedColumn}
    (h : e.SelectsAll columns) : columns.any (·.field == e.pk) = true := by
  rw [h e.pk]
  obtain ⟨c, hc, hname⟩ := List.mem_map.mp (hasField_iff.mp hpk)
  exact List.any_eq_true.mpr ⟨c, hc, beq_iff_eq.mpr hname⟩

theorem key_having {id : EntityId} (hpk : (s.entity id).hasField (s.entity id).pk = true) (r : Record)
    (joined : List (String × Related)) : (s.having id r joined).pk s = (s.entity id).key r :=
  pk_instanceOf hpk (any_pk_of_selectsAll hpk (selectsAll_allColumns _)) r

theorem get?_having {id : EntityId} {field : String} (h : (s.entity id).hasField field = true) (r : Record)
    (joined : List (String × Related)) :
    (s.having id r joined).get? field = some (r.at_ ((s.entity id).dbName field)) := by
  have hmem := hasField_iff.mp h
  have hselected : (s.entity id).allColumns.any (·.field == field) = true := by
    rw [selectsAll_allColumns (s.entity id) field]
    obtain ⟨c, hc, hname⟩ := List.mem_map.mp hmem
    exact List.any_eq_true.mpr ⟨c, hc, beq_iff_eq.mpr hname⟩
  have hget : (s.having id r joined).get? field =
      NameMap.get? ((s.entity id).fieldsOf (s.entity id).allColumns r) field := rfl
  rw [hget, get?_fieldsOf, if_pos hmem, if_pos hselected]

theorem related?_having (id : EntityId) (r : Record) (joined : List (String × Related)) (name : String) :
    (s.having id r joined).related? name =
      (NameMap.get? joined name).or ((s.having id r []).related? name) := by
  unfold Schema.having
  rw [related?_loading, related?_loading, NameMap.get?_nil, Option.none_or]

theorem having_congr {id : EntityId} {r : Record} {joined joined' : List (String × Related)}
    (h : ∀ name, NameMap.get? joined name = NameMap.get? joined' name) : s.having id r joined = s.having id r joined' := by
  refine Instance.ext_related (NameMap.ordered_ofFirst _) (NameMap.ordered_ofFirst _) rfl rfl fun name => ?_
  rw [related?_having, related?_having id r joined', h]

/-- A relation that goes through a linking table has no stub. -/
theorem related?_having_of_manyToMany (hlinked : s.Linked) {rel : Relation} (hrel : rel ∈ s.relations)
    (hmany : rel.isManyToMany = true) (t : Record) : (s.having rel.owner t []).related? rel.name = none := by
  rw [Schema.having, related?_loading, NameMap.get?_nil, Option.none_or, NameMap.get?_eq_none_iff]
  intro hmem
  obtain ⟨pair, hpair, hname⟩ := List.mem_map.mp hmem
  obtain ⟨other, hother, hstub⟩ := List.mem_filterMap.mp hpair
  obtain ⟨hother, howner⟩ := List.mem_filter.mp hother
  unfold Relation.stub? at hstub
  split at hstub
  · rename_i key hlink
    split at hstub
    · cases hstub
      obtain rfl := hlinked.eq_of_name hother hrel (eq_of_beq howner) hname
      rw [Relation.isManyToMany, hlink] at hmany
      cases hmany
    · cases hstub
  · cases hstub

/-! ### Loading along paths -/

/-- The instance of a row at the end of a path, loaded along the paths that go on from there. -/
def Schema.loaded (s : Schema) (sv : Server) (db : Database) (paths : List Path) :
    Nat → Path → EntityId → Record → Instance
  | 0, _, id, r => s.having id r []
  | levels + 1, path, id, r =>
    s.having id r (((s.relationsOf id).filter fun rel => goThrough paths (path.child rel.name)).map fun rel =>
      (rel.name, Related.of rel.isToMany
        ((rel.rowsOf sv db s r).map (s.loaded sv db paths levels (path.child rel.name) rel.target))))

/-- The relations that are loaded one relation further. -/
def Schema.loadedRelations (s : Schema) (sv : Server) (db : Database) (paths : List Path) (levels : Nat) (path : Path)
    (id : EntityId) (r : Record) : List (String × Related) :=
  ((s.relationsOf id).filter fun rel => goThrough paths (path.child rel.name)).map fun rel =>
    (rel.name, Related.of rel.isToMany
      ((rel.rowsOf sv db s r).map (s.loaded sv db paths levels (path.child rel.name) rel.target)))

theorem loaded_succ (paths : List Path) (levels : Nat) (path : Path) (id : EntityId) (r : Record) :
    s.loaded sv db paths (levels + 1) path id r =
      s.having id r (s.loadedRelations sv db paths levels path id r) := rfl

theorem get?_loadedRelations (hs : s.Linked) {paths : List Path} {rel : Relation} (hrel : rel ∈ s.relations)
    {path : Path} (hthrough : goThrough paths (path.child rel.name) = true) (levels : Nat) (r : Record) :
    NameMap.get? (s.loadedRelations sv db paths levels path rel.owner r) rel.name =
      some (Related.of rel.isToMany
        ((rel.rowsOf sv db s r).map (s.loaded sv db paths levels (path.child rel.name) rel.target))) := by
  have hmem : rel ∈ (s.relationsOf rel.owner).filter fun rel => goThrough paths (path.child rel.name) :=
    List.mem_filter.mpr ⟨List.mem_filter.mpr ⟨hrel, beq_self_eq_true _⟩, hthrough⟩
  refine NameMap.get?_map_of_unique hmem fun other hother hname => ?_
  obtain ⟨hother, howner⟩ := List.mem_filter.mp (List.mem_filter.mp hother).1
  rw [hs.eq_of_name hother hrel (eq_of_beq howner) hname]

theorem get?_loadedRelations_of_not {paths : List Path} {path : Path} {name : String}
    (hnot : goThrough paths (path.child name) = false) (levels : Nat) (id : EntityId) (r : Record) :
    NameMap.get? (s.loadedRelations sv db paths levels path id r) name = none := by
  rw [NameMap.get?_eq_none_iff, Schema.loadedRelations, List.map_map]
  intro hmem
  obtain ⟨rel, hrel, rfl⟩ := List.mem_map.mp hmem
  exact absurd (List.mem_filter.mp hrel).2 (Bool.eq_false_iff.mp hnot)

theorem loaded_of_end {paths : List Path} {path : Path} (h : ∀ name, goThrough paths (path.child name) = false)
    (levels : Nat) (id : EntityId) (r : Record) : s.loaded sv db paths levels path id r = s.having id r [] := by
  cases levels with
  | zero => rfl
  | succ levels => exact having_congr fun name => get?_loadedRelations_of_not (h name) levels id r

/-- What the tree of a prepared request is made from. -/
def Prepared.source (p : Prepared) : JoinSource :=
  ⟨p.schema, p.bound.resolved, p.aliases, p.bound.projection, p.request.partialPaths⟩

theorem Prepared.Named.nodup_names (h : p.Named) {levels : Nat} {path : Path} {nodes : List JoinNode}
    (hnodes : p.source.nodesBelow levels path = .ok nodes) : (nodes.map (·.name)).Nodup := by
  have hjoined : JoinedPaths p.source.schema p.request.root p.source.resolved := h.bound.joined
  exact (planned_of_nodesBelow hjoined hnodes).1

theorem found_of_mem_keptRows (h : p.Named) {row : Joined} (hrow : row ∈ p.keptRows sv db) {r : ResolvedPath}
    (hr : r ∈ p.bound.resolved) : row r.path ∈ (r.relation p.schema).follow sv db p.schema (row r.parent) := by
  obtain ⟨-, hstart⟩ := (mem_joinedRows_at h).mp ⟨(List.mem_filter.mp hrow).1, rfl⟩
  exact ((mem_joinPaths_iff h.bound.joined.parentsFirst).mp hstart).1 r hr

/-- In the rows of a statement keys tell the rows of all entities apart, and foreign keys lead to one row. -/
theorem tells_of_nodesBelow (h : p.Named) (hdb : db.Sound sv p.schema) {rows : List Joined}
    (hkept : rows ⊆ p.keptRows sv db) {levels : Nat} {path : Path} {nodes : List JoinNode}
    (hnodes : p.source.nodesBelow levels path = .ok nodes) :
    (nodes.map (·.name)).Nodup ∧ ∀ node ∈ nodes, node.Tells p.schema rows path := by
  refine ⟨h.nodup_names hnodes, ?_⟩
  induction levels generalizing path nodes with
  | zero =>
    cases hnodes
    exact fun _ hn => absurd hn List.not_mem_nil
  | succ levels ih =>
    intro node hn
    obtain ⟨r, hstep, a, children, -, hchildren, rfl⟩ := exists_of_mem_forall₂ (forall₂_of_nodesBelow hnodes) hn
    obtain ⟨hr, name, hname⟩ := segments_of_mem_stepsFrom (List.mem_filter.mp hstep).1
    have hparent : r.parent = path := by
      rw [ResolvedPath.parent, hname, List.dropLast_concat]
    have hid := h.lt_target hr
    refine .intro (h.schema.hasField_pk hid) (fun row hrow row' hrow' hkey => ?_)
      (fun htoMany row hrow row' hrow' he => ?_) (h.nodup_names hchildren) (ih hchildren)
    -- the server tells keys apart by rank, so equal keys are two rows of one record
    · have hrank : sv.rank .asc ((p.schema.entity r.target).key (row r.path))
          ((p.schema.entity r.target).key (row' r.path)) = .eq := by
        rw [show (p.schema.entity r.target).key (row r.path) = _ from hkey]
        exact Std.ReflCmp.compare_self
      exact eq_of_rank h.schema hdb.keys hid ((fits_of_mem_keptRows h (hkept hrow)).joined r hr)
        ((fits_of_mem_keptRows h (hkept hrow')).joined r hr) hrank
    · have hfound := found_of_mem_keptRows h (hkept hrow) hr
      have hfound' := found_of_mem_keptRows h (hkept hrow') hr
      rw [hparent] at hfound hfound'
      rw [← he] at hfound'
      obtain ⟨hmem, -⟩ := h.relation_mem hr
      have htoOne : (!(r.relation p.schema).isForeignKey) = false := htoMany
      exact eq_of_mem_follow hdb (h.schema.targets _ hmem) (by simpa using htoOne) hfound hfound'

theorem parent_of_child {r : ResolvedPath} {path : Path} {name : String} (h : r.path = path.child name) :
    r.parent = path := by
  rw [ResolvedPath.parent, h, Path.child, List.dropLast_concat]

/-- A step from a path is along a relation of the entity there. -/
theorem hop_of_mem_stepsFrom (h : p.Named) {path : Path} {hops : List RelationId} {id : EntityId}
    (hwalk : p.schema.walk p.request.root path.segments = .ok (hops, id)) {r : ResolvedPath}
    (hstep : r ∈ p.source.stepsFrom path) :
    r ∈ p.bound.resolved ∧ (r.relation p.schema).owner = id ∧ r.path = path.child (r.relation p.schema).name := by
  obtain ⟨hr, name, hsegments⟩ := segments_of_mem_stepsFrom hstep
  obtain ⟨_, mid, hop, hbefore, hfind, hlast, -⟩ := (h.bound.joined.resolves r hr).lastHop hsegments
  obtain ⟨-, rfl⟩ := Prod.mk.inj (Except.ok.inj (hbefore.symm.trans hwalk))
  obtain ⟨-, howner, hname⟩ := relation_of_findRelation? hfind
  rw [ResolvedPath.relation, hlast, Option.getD_some, hname]
  exact ⟨hr, howner, congrArg Path.mk hsegments⟩

/-- What rows that agree on a path show together one relation further, given what they show below. -/
theorem gather_step (h : p.Named) (hdb : db.Sound sv p.schema) (hroot : p.ReadsRoot)
    (hwhole : p.bound.projection.OnlyRequires) {r : ResolvedPath} (hr : r ∈ p.bound.resolved) {sample : Joined}
    {rows : List Joined} (hspans : p.Spans sv db r.parent sample rows) {a : Alias} {children : List JoinNode}
    {result : Record → Instance}
    (hbelow : ∀ row ∈ rows, p.schema.having r.target (row r.path)
      (nodesGather p.schema children (rows.filter fun other => other r.path = row r.path)) = result (row r.path)) :
    (p.source.node r (r.lastHop?.getD default) a children).gather p.schema rows =
      ((r.relation p.schema).rowsOf sv db p.schema (sample r.parent)).map result := by
  have hselected := selectsAll_selectColumns (e := p.schema.entity r.target)
    (fun field => (hwhole.at_ r.path).isIncluded field) (some a)
  have hshows : (p.schema.entity r.target).shows
      (selectColumns (p.schema.entity r.target) (p.source.projection.at_ r.path) (some a)) =
      fun t => !((p.schema.entity r.target).key t).isNull := funext fun t => by
    rw [Entity.shows]
    exact (congrArg (· && _) (any_pk_of_selectsAll (h.schema.hasField_pk (h.lt_target hr)) hselected)).trans
      (Bool.true_and _)
  rw [JoinNode.gather_eq, ← firsts_of_spans h hdb hroot hspans hr rfl]
  change ((distinct (rows.map (· r.path))).filter ((p.schema.entity r.target).shows
    (selectColumns (p.schema.entity r.target) (p.source.projection.at_ r.path) (some a)))).map _ = _
  rw [hshows]
  refine List.map_congr_left fun t ht => ?_
  obtain ⟨row, hrow, rfl⟩ := List.mem_map.mp (mem_distinct.mp (List.mem_filter.mp ht).1)
  rw [← hbelow row hrow]
  exact loading_eq_having hselected _ _

/-- Where the root is selected with all fields, there is one instance for each root row, with what its joined rows show
together. -/
theorem allInstances_eq_gather (h : p.Named) (hdb : db.Sound sv p.schema)
    (hincluded : ∀ field, p.bound.projection.isIncluded field = true) {tree : JoinTree} (ht : p.tree = .ok tree) :
    p.allInstances sv db tree =
      (p.rootsInOrder sv db).map fun r => p.schema.having p.request.root r
        (nodesGather p.schema tree.children ((p.sortRows sv (p.keptRows sv db)).filter fun row => row .root = r)) := by
  obtain ⟨nodes, hnodes, rfl⟩ := map_eq_ok.mp ht
  have hselected := selectsAll_selectColumns (e := p.schema.entity p.request.root) hincluded none
  have hpk := h.schema.hasField_pk h.root
  have hsub : p.sortRows sv (p.keptRows sv db) ⊆ p.keptRows sv db := fun row hrow =>
    mem_sortRows.mp hrow
  obtain ⟨hnames, htells⟩ := tells_of_nodesBelow h hdb hsub hnodes
  have hkeys : ∀ row ∈ p.sortRows sv (p.keptRows sv db), ∀ row' ∈ p.sortRows sv (p.keptRows sv db),
      (p.schema.entity p.request.root).key (row .root) = (p.schema.entity p.request.root).key (row' .root) →
        row .root = row' .root := by
    intro row hrow row' hrow' he
    exact eq_of_key_eq hdb.keys h.root (fits_of_mem_keptRows h (hsub hrow)).root
      (fits_of_mem_keptRows h (hsub hrow')).root he
  have hmerged := @merge_read p.schema (p.sortRows sv (p.keptRows sv db))
    ⟨p.request.root, selectColumns (p.schema.entity p.request.root) p.bound.projection none, nodes⟩ hpk
    (any_pk_of_selectsAll hpk hselected) hkeys hnames htells
  refine hmerged.trans ?_
  exact List.map_congr_left fun r _ => loading_eq_having hselected _ _

section

variable {paths : List Path}

/-- Joined rows that agree on a path show together what loading along the rest of the paths means. -/
theorem having_nodesGather (h : p.Named) (hdb : db.Sound sv p.schema) (hs : p.schema.Linked) (hroot : p.ReadsRoot)
    (hwhole : p.bound.projection.OnlyRequires)
    (hpaths : ∀ path, path ≠ .root → ((∃ r ∈ p.bound.resolved, r.path = path) ↔ goThrough paths path = true))
    {levels : Nat} {path : Path} {nodes : List JoinNode} (hnodes : p.source.nodesBelow levels path = .ok nodes)
    {sample : Joined} {rows : List Joined} (hspans : p.Spans sv db path sample rows) {hops : List RelationId}
    {id : EntityId} (hwalk : p.schema.walk p.request.root path.segments = .ok (hops, id)) :
    p.schema.having id (sample path) (nodesGather p.schema nodes rows) =
      p.schema.loaded sv db paths levels path id (sample path) := by
  -- name by name: a relation is among the nodes just where the paths go through it
  induction levels generalizing path nodes sample rows hops id with
  | zero =>
    cases hnodes
    rfl
  | succ levels ih =>
    have hnames := h.nodup_names hnodes
    have hsteps := forall₂_of_nodesBelow hnodes
    rw [loaded_succ]
    refine having_congr fun name => ?_
    by_cases hname : name ∈ nodes.map (·.name)
    · obtain ⟨node, hn, rfl⟩ := List.mem_map.mp hname
      rw [get?_nodesGather hnames hn]
      obtain ⟨r, hstep, a, children, -, hchildren, rfl⟩ := exists_of_mem_forall₂ hsteps hn
      obtain ⟨hr, rfl, hpath⟩ := hop_of_mem_stepsFrom h hwalk (List.mem_filter.mp hstep).1
      obtain ⟨hmem, htarget⟩ := h.relation_mem hr
      obtain rfl := parent_of_child hpath
      have hthrough := (hpaths _ (h.bound.joined.ne_root r hr)).mp ⟨r, hr, rfl⟩
      have hgather : (p.source.node r (r.lastHop?.getD default) a.target children).gather p.schema rows =
          ((r.relation p.schema).rowsOf sv db p.schema (sample r.parent)).map
            (p.schema.loaded sv db paths levels r.path r.target) := by
        refine gather_step h hdb hroot hwhole hr hspans fun row hrow => ?_
        have hnarrow := hspans.narrow hrow (r.relation p.schema).name
        rw [← hpath] at hnarrow
        exact ih hchildren hnarrow (h.bound.joined.resolves r hr)
      rw [hgather, htarget]
      rw [hpath] at hthrough
      refine Eq.trans ?_ (get?_loadedRelations hs hmem hthrough levels (sample r.parent)).symm
      rw [← hpath]
      rfl
    · have hnot : goThrough paths (path.child name) = false := by
        refine Bool.eq_false_iff.mpr fun hthrough => hname ?_
        obtain ⟨r, hr, hrpath⟩ := (hpaths _ (Path.child_ne_root path name)).mpr hthrough
        obtain ⟨a, children, -, hshown, hnode⟩ :=
          exists_node_of_nodesBelow h.bound.joined hnodes hr hrpath (hwhole.excludesPath r.path)
        exact List.mem_map.mpr ⟨_, hnode, hshown⟩
      rw [get?_loadedRelations_of_not hnot, NameMap.get?_eq_none_iff.mpr (by rwa [nodesGather_eq_map, List.map_map])]

/-- Where filters and orderings read the root alone, joining paths loads along them. -/
theorem allInstances_eq_loaded (h : p.Named) (hdb : db.Sound sv p.schema) (hs : p.schema.Linked) (hroot : p.ReadsRoot)
    (hwhole : p.bound.projection.OnlyRequires)
    (hpaths : ∀ path, path ≠ .root → ((∃ r ∈ p.bound.resolved, r.path = path) ↔ goThrough paths path = true))
    {tree : JoinTree} (ht : p.tree = .ok tree) :
    p.allInstances sv db tree =
      (p.rootsInOrder sv db).map (p.schema.loaded sv db paths p.source.levels .root p.request.root) := by
  rw [allInstances_eq_gather h hdb (fun field => hwhole.isIncluded field) ht]
  obtain ⟨nodes, hnodes, rfl⟩ := map_eq_ok.mp ht
  refine List.map_congr_left fun r hr => ?_
  obtain ⟨row, hrow, rfl⟩ := List.mem_map.mp (mem_distinct.mp hr)
  have hkept : row ∈ p.keptRows sv db := mem_sortRows.mp hrow
  exact having_nodesGather h hdb hs hroot hwhole hpaths hnodes (spans_root hkept) rfl

end

end RelQuery
