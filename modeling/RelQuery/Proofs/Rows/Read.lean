import RelQuery.Proofs.Plan.Order
import RelQuery.Proofs.Rows.Reconstruct

/-!
# Reading joined rows

The instance that a joined row shows at each node of a tree, told without rows and labels, and that slicing the cells
of the row along the tree gives just that.
-/

namespace RelQuery

open Sql

variable {sv : Server} {db : Database} {s : Schema} {p : Prepared}

/-! ### One entity -/

/-- The fields of an instance as a row of its entity has them; null for those that are not selected. -/
def Entity.fieldsOf (e : Entity) (columns : List SelectedColumn) (r : Record) : NameMap Value :=
  NameMap.ofPairs (e.columns.map fun c =>
    (c.name, if columns.any (·.field == c.name) then r.at_ (e.dbName c.name) else .null))

def instanceOf (s : Schema) (id : EntityId) (columns : List SelectedColumn) (r : Record) : Instance :=
  .ofFields id ((s.entity id).fieldsOf columns r)

/-- Whether a row shows an instance: its primary key is selected and not null. -/
def Entity.shows (e : Entity) (columns : List SelectedColumn) (r : Record) : Bool :=
  columns.any (·.field == e.pk) && !(e.key r).isNull

theorem get?_fieldsOf (e : Entity) (columns : List SelectedColumn) (r : Record) (name : String) :
    NameMap.get? (e.fieldsOf columns r) name =
      if name ∈ e.columns.map (·.name) then
        some (if columns.any (·.field == name) then r.at_ (e.dbName name) else .null)
      else none :=
  NameMap.get?_ofPairs_map e.columns (·.name)
    (fun name => if columns.any (·.field == name) then r.at_ (e.dbName name) else .null) name

theorem dbName_pk {e : Entity} (h : e.hasField e.pk = true) : e.dbName e.pk = e.pkColumn.dbName := by
  obtain ⟨c, hc⟩ := Option.isSome_iff_exists.mp h
  rw [Entity.dbName, Entity.pkColumn, hc]
  rfl

theorem pk_instanceOf {id : EntityId} (h : (s.entity id).hasField (s.entity id).pk = true) {columns : List SelectedColumn}
    (hpk : columns.any (·.field == (s.entity id).pk) = true) (r : Record) :
    (instanceOf s id columns r).pk s = (s.entity id).key r := by
  unfold instanceOf Instance.pk Instance.get? Instance.ofFields
  rw [get?_fieldsOf, if_pos (hasField_iff.mp h), if_pos hpk, dbName_pk h]
  rfl

/-- Of the selected columns none shares its field with another, so each field is the column that it is named for. -/
theorem dbName_of_nodup {e : Entity} {projection : Projection} {table : Option Alias}
    (h : ((selectColumns e projection table).map (·.field)).Nodup) {c : Column}
    (hc : c ∈ projection.visibleColumns e) : e.dbName c.name = c.dbName := by
  unfold selectColumns at h
  rw [List.map_map] at h
  obtain ⟨hmem, hvisible⟩ := List.mem_filter.mp hc
  have hsome : (e.column? c.name).isSome = true := List.find?_isSome.mpr ⟨c, hmem, by simp⟩
  obtain ⟨first, hfirst⟩ := Option.isSome_iff_exists.mp hsome
  have hname : first.name = c.name := by simpa using List.find?_some hfirst
  have hfirstMem : first ∈ projection.visibleColumns e :=
    List.mem_filter.mpr ⟨List.mem_of_find?_eq_some hfirst, by rw [hname]; exact hvisible⟩
  rw [Entity.dbName, hfirst, List.inj_on_of_nodup_map h hfirstMem hc hname]

theorem any_field_selectColumns_iff {e : Entity} {projection : Projection} {table : Option Alias} {c : Column}
    (hc : c ∈ e.columns) :
    (selectColumns e projection table).any (·.field == c.name) = true ↔ c ∈ projection.visibleColumns e := by
  constructor
  · intro h
    obtain ⟨sc, hsc, hfield⟩ := List.any_eq_true.mp h
    obtain ⟨c', hc', rfl⟩ := List.mem_map.mp hsc
    have hname : c'.name = c.name := beq_iff_eq.mp hfield
    exact List.mem_filter.mpr ⟨hc, hname ▸ (List.mem_filter.mp hc').2⟩
  · intro h
    exact any_field_selectColumns hc (List.mem_filter.mp h).2

/-- The instance that a row of an entity shows fits the columns selected for it. -/
theorem fieldsFit_instanceOf (hs : s.WellFormed) (hdb : db.Sound sv s) {id : EntityId}
    (hid : id.index < s.entities.length) {projection : Projection} {table : Option Alias}
    (hnodup : ((selectColumns (s.entity id) projection table).map (·.field)).Nodup) {r : Record} (hr : r ∈ db.of s id)
    (hpk : (selectColumns (s.entity id) projection table).any (·.field == (s.entity id).pk) = true) :
    FieldsFit s id (selectColumns (s.entity id) projection table)
      (instanceOf s id (selectColumns (s.entity id) projection table) r) := by
  have hfield := hs.hasField_pk hid
  have hget : ∀ c ∈ (s.entity id).columns,
      (instanceOf s id (selectColumns (s.entity id) projection table) r).get? c.name =
        some (if (selectColumns (s.entity id) projection table).any (·.field == c.name)
          then r.at_ ((s.entity id).dbName c.name) else .null) := by
    intro c hc
    unfold instanceOf Instance.get? Instance.ofFields
    rw [get?_fieldsOf, if_pos (List.mem_map_of_mem hc)]
  refine ⟨rfl, NameMap.ordered_ofPairs _, fun name => ?_, ?_, fun c hc hsel hnull he => ?_, fun c hc hsel => ?_⟩
  · rw [← not_iff_not, ← NameMap.get?_eq_none_iff]
    unfold instanceOf Instance.ofFields
    rw [get?_fieldsOf]
    split
    · rename_i hmem
      exact iff_of_false (by simp) fun hnot => hnot hmem
    · rename_i hmem
      exact iff_of_true rfl hmem
  · rw [pk_instanceOf hfield hpk]
    exact hdb.keyed id hid r hr
  · have hc' := (any_field_selectColumns_iff hc).mp hsel
    rw [hget c hc, if_pos hsel, dbName_of_nodup hnodup hc'] at he
    exact hdb.required id hid r hr c hc hnull (Option.some.inj he)
  · rw [hget c hc, hsel]
    rfl

/-- What a row puts under the labels of selected columns. -/
def recordCells (columns : List SelectedColumn) (r : Record) : Cells := columns.map fun c => (c.label, r.at_ c.dbName)

theorem cellsOf_instanceOf {id : EntityId} {projection : Projection} {table : Option Alias}
    (hnodup : ((selectColumns (s.entity id) projection table).map (·.field)).Nodup) (r : Record) :
    cellsOf (selectColumns (s.entity id) projection table)
      (instanceOf s id (selectColumns (s.entity id) projection table) r) =
      recordCells (selectColumns (s.entity id) projection table) r := by
  refine List.map_congr_left fun sc hsc => ?_
  obtain ⟨c, hc, rfl⟩ := List.mem_map.mp hsc
  have hmem := (List.mem_filter.mp hc).1
  unfold instanceOf Instance.get? Instance.ofFields
  rw [get?_fieldsOf, if_pos (List.mem_map_of_mem hmem), if_pos ((any_field_selectColumns_iff hmem).mpr hc),
    dbName_of_nodup hnodup hc]
  rfl

/-- The value of a field in the cells of a row of an entity is that of its column, if it is selected. -/
theorem rowValue?_record {e : Entity} {projection : Projection} {table : Option Alias}
    (hnodup : ((selectColumns e projection table).map (·.field)).Nodup) {row : Row} {r : Record}
    (h : Reads row (recordCells (selectColumns e projection table) r)) (field : String) :
    rowValue? row (selectColumns e projection table) field =
      if (selectColumns e projection table).any (·.field == field) then some (r.at_ (e.dbName field)) else none := by
  unfold rowValue?
  rcases hfind : (selectColumns e projection table).find? (·.field == field) with - | sc
  · have hany : (selectColumns e projection table).any (·.field == field) = false := by simpa using hfind
    rw [hfind, hany]
    rfl
  · have hmem := List.mem_of_find?_eq_some hfind
    have hfield : sc.field = field := by simpa using List.find?_some hfind
    have hany : (selectColumns e projection table).any (·.field == field) = true :=
      List.any_eq_true.mpr ⟨sc, hmem, by simp [hfield]⟩
    have hvalue := h (sc.label, r.at_ sc.dbName) (List.mem_map_of_mem hmem)
    obtain ⟨c, hc, rfl⟩ := List.mem_map.mp hmem
    have hname : c.name = field := hfield
    have hcolumn : c.dbName = e.dbName field := by rw [← hname, dbName_of_nodup hnodup hc]
    rw [hfind, hany, Option.bind_some, hvalue, if_pos rfl, ← hcolumn]

/-- A row has a key where the row of the entity shows an instance. -/
theorem hasKey_of_reads {e : Entity} (hpk : e.hasField e.pk = true) {projection : Projection} {table : Option Alias}
    (hnodup : ((selectColumns e projection table).map (·.field)).Nodup) {row : Row} {r : Record}
    (h : Reads row (recordCells (selectColumns e projection table) r)) :
    hasKey row e (selectColumns e projection table) = e.shows (selectColumns e projection table) r := by
  unfold hasKey Entity.shows
  rw [rowValue?_record hnodup h, dbName_pk hpk]
  cases (selectColumns e projection table).any (·.field == e.pk) <;> rfl

/-- The fields in the cells of a row of an entity are those of the row. -/
theorem rowValues_record {e : Entity} {projection : Projection} {table : Option Alias}
    (hnodup : ((selectColumns e projection table).map (·.field)).Nodup) {row : Row} {r : Record}
    (h : Reads row (recordCells (selectColumns e projection table) r)) :
    rowValues row e (selectColumns e projection table) = e.fieldsOf (selectColumns e projection table) r := by
  unfold rowValues Entity.fieldsOf
  refine congrArg NameMap.ofPairs (List.map_congr_left fun c _ => ?_)
  rw [rowValue?_record hnodup h]
  cases (selectColumns e projection table).any (·.field == c.name) <;> rfl

/-- An instance that is assembled from a row has the fields that the row has, whatever is joined to it. -/
theorem fields_of_assemble {row : Row} {id : EntityId} {columns : List SelectedColumn} {isPartial : Bool}
    {joined : Except QueryError (NameMap Related)} {found : Option Instance}
    (h : (standardOf s).assemble row id columns isPartial joined = .ok found)
    (hkey : hasKey row (s.entity id) columns = true) :
    ∃ i, found = some i ∧ i.entity = id ∧ i.fields = rowValues row (s.entity id) columns := by
  have hconstruct : ∀ {values : NameMap Value} {i : Instance},
      (standardOf s).construct id values isPartial = .ok i → i = .ofFields id values := by
    intro values i hi
    unfold Materializer.construct standardOf Factory.standard at hi
    dsimp only at hi
    cases isPartial with
    | true => exact (Except.ok.inj hi).symm
    | false =>
      split at hi
      · rename_i hok
        cases hi
        rw [if_neg Bool.false_ne_true] at hok
        split at hok
        · cases hok
        · exact (Except.ok.inj hok).symm
      · cases hi
  unfold Materializer.assemble at h
  dsimp only at h
  rw [show (standardOf s).schema = s from rfl, if_pos hkey] at h
  obtain ⟨_, -, h⟩ := bind_eq_ok.mp h
  obtain ⟨i, hi, h⟩ := bind_eq_ok.mp h
  obtain ⟨_, -, h⟩ := bind_eq_ok.mp h
  cases h
  rw [hconstruct hi]
  exact ⟨_, rfl, rfl, rfl⟩

/-! ### Nodes -/

mutual

/-- The instance that a joined row shows at a node, with those that it shows below and stubs for other foreign keys. -/
def JoinNode.read (s : Schema) (row : Joined) : JoinNode → Option Instance
  | ⟨_, _, path, target, _, _, _, columns, children⟩ =>
    if (s.entity target).shows columns (row path) then
      some ((instanceOf s target columns (row path)).loading s columns (nodesRead s row children))
    else none
termination_by structural node => node

def nodesRead (s : Schema) (row : Joined) : List JoinNode → List (String × Related)
  | [] => []
  | node :: rest => (node.name, Materializer.relatedOf node.toMany (node.read s row)) :: nodesRead s row rest
termination_by structural nodes => nodes

end

/-- The root instance that a joined row shows. -/
def JoinTree.read (s : Schema) (row : Joined) (t : JoinTree) : Instance :=
  (instanceOf s t.root t.columns (row .root)).loading s t.columns (nodesRead s row t.children)

theorem ofNodes_read {row : Row} {joined : Joined} {nodes : List JoinNode}
    (h : ∀ node ∈ nodes, (standardOf s).ofNode row node = .ok (node.read s joined)) :
    (standardOf s).ofNodes row nodes = .ok (NameMap.ofFirst (nodesRead s joined nodes)) := by
  induction nodes with
  | nil => rfl
  | cons node rest ih =>
    obtain ⟨hnode, hrest⟩ := List.forall_mem_cons.mp h
    rw [nodesRead]
    exact ofNodes_cons hnode (ih hrest)

theorem cellsOfItems_eq_map (group : List Tuple) (items : List SelectItem) :
    cellsOfItems sv db group items = items.map fun item => item.cell sv db group := by
  induction items with
  | nil => rfl
  | cons item rest ih => rw [cellsOfItems, ih, List.map_cons]

theorem cellsOfItems_append (group : List Tuple) (items more : List SelectItem) :
    cellsOfItems sv db group (items ++ more) = cellsOfItems sv db group items ++ cellsOfItems sv db group more := by
  rw [cellsOfItems_eq_map, cellsOfItems_eq_map, cellsOfItems_eq_map, List.map_append]

/-- The columns of a table are read from the row at the path that the table is named for. -/
theorem cells_columnItems (h : p.Named) {path : Path} {id : EntityId} {table : String} {projection : Projection}
    {label : Option Alias} (htable : p.aliases.qualifier path p.rootTable = .ok table)
    (hplace : ∀ column ∈ (p.schema.entity id).columns.map (·.dbName), p.HasPlace path column) (t : Tuple) :
    cellsOfItems sv db [t] (columnItems table (selectColumns (p.schema.entity id) projection label)) =
      recordCells (selectColumns (p.schema.entity id) projection label) (p.rowOf p.bound.resolved t path) := by
  rw [cellsOfItems_eq_map, columnItems, List.map_map]
  refine List.map_congr_left fun sc hsc => ?_
  obtain ⟨c, hc, rfl⟩ := List.mem_map.mp hsc
  have hvalue := (hplace c.dbName (List.mem_map_of_mem (List.mem_filter.mp hc).1)).column_eq h htable t
  rw [← Joined.value, ← hvalue]
  rfl

theorem nodup_fields {e : Entity} {projection : Projection} {label : Option Alias} {table : String}
    (h : ((columnItems table (selectColumns e projection label)).map (·.label)).Nodup) :
    ((selectColumns e projection label).map (·.field)).Nodup := by
  unfold columnItems selectColumns at *
  rw [List.map_map, List.map_map] at h
  rw [List.map_map]
  cases label with
  | some a =>
    refine List.Nodup.of_map (fun name => some (a.label name)) ?_
    rw [List.map_map]
    exact h
  | none =>
    refine List.Nodup.of_map some ?_
    rw [List.map_map]
    exact h

theorem nodup_items_of_mem {nodes : List JoinNode} (h : ((nodes.flatMap JoinNode.items).map (·.label)).Nodup)
    {node : JoinNode} (hn : node ∈ nodes) : (node.items.map (·.label)).Nodup := by
  rw [List.map_flatMap] at h
  exact (List.nodup_flatMap.mp h).1 node hn

theorem reads_items_of_mem {nodes : List JoinNode} {row : Row} {group : List Tuple}
    (h : Reads row (cellsOfItems sv db group (nodes.flatMap JoinNode.items))) {node : JoinNode} (hn : node ∈ nodes) :
    Reads row (cellsOfItems sv db group node.items) := by
  intro cell hcell
  refine h cell ?_
  rw [cellsOfItems_eq_map] at hcell ⊢
  obtain ⟨item, hitem, rfl⟩ := List.mem_map.mp hcell
  exact List.mem_map_of_mem (List.mem_flatMap.mpr ⟨node, hn, hitem⟩)

/-- Slicing the cells of a tuple at a node gives what the row that it shows shows there. -/
theorem ofNode_read (h : p.Named) (hdb : db.Sound sv p.schema) {partialPaths : List Path} {node : JoinNode}
    (hn : node.Planned ⟨p.schema, p.bound.resolved, p.aliases, p.bound.projection, partialPaths⟩)
    (hc : node.Complete p.schema) (hlabels : (node.items.map (·.label)).Nodup) {t : Tuple}
    (hfit : p.RowFits db (p.rowOf p.bound.resolved t)) {row : Row}
    (hreads : Reads row (cellsOfItems sv db [t] node.items)) :
    (standardOf p.schema).ofNode row node = .ok (node.read p.schema (p.rowOf p.bound.resolved t)) := by
  induction hn with
  | @intro r a children mem kept named names below ih =>
    obtain ⟨hrequired, -, hcomplete⟩ := hc
    have hid := h.lt_target mem
    have hfield := h.schema.hasField_pk hid
    unfold JoinSource.node JoinNode.items at hlabels hreads
    rw [nodesItems_eq_flatMap] at hlabels hreads
    rw [List.map_append, List.nodup_append'] at hlabels
    obtain ⟨hown, hbelow, -⟩ := hlabels
    rw [cellsOfItems_append, reads_append,
      cells_columnItems h (qualifier_of_ne_root (h.bound.joined.ne_root r mem) named) fun _ => h.place_at mem] at hreads
    obtain ⟨hreadsOwn, hreadsBelow⟩ := hreads
    have hchildren : ∀ child ∈ children,
        (standardOf p.schema).ofNode row child = .ok (child.read p.schema (p.rowOf p.bound.resolved t)) :=
      fun child hchild => ih child hchild (hcomplete child hchild) (nodup_items_of_mem hbelow hchild)
        (reads_items_of_mem hreadsBelow hchild)
    unfold JoinSource.node
    rw [Materializer.ofNode, ofNodes_read hchildren, JoinNode.read]
    -- the key decides: without it the row holds no record here, whatever its other cells say
    have hkey := hasKey_of_reads hfield (nodup_fields hown) hreadsOwn
    by_cases hshows : (p.schema.entity r.target).shows
        (selectColumns (p.schema.entity r.target) (p.bound.projection.at_ r.path) (some a.target))
        (p.rowOf p.bound.resolved t r.path) = true
    · obtain ⟨hpk, hnull⟩ := (Bool.and_eq_true _ _).mp hshows
      have hr : p.rowOf p.bound.resolved t r.path ∈ db.of p.schema r.target := by
        refine (hfit.joined r mem).resolve_right fun he => ?_
        rw [he, key_nulls h.schema hid] at hnull
        exact absurd hnull (by decide)
      rw [if_pos hshows]
      refine assemble_standard (fieldsFit_instanceOf h.schema hdb hid (nodup_fields hown) hr hpk) ?_ hrequired _
      rw [cellsOf_instanceOf (nodup_fields hown)]
      exact hreadsOwn
    · have hnone : hasKey row ((standardOf p.schema).schema.entity r.target)
          (selectColumns (p.schema.entity r.target) (p.bound.projection.at_ r.path) (some a.target)) = false :=
        hkey.trans (Bool.eq_false_iff.mpr hshows)
      rw [if_neg hshows, Materializer.assemble]
      simp only [hnone, Bool.false_eq_true, if_false]

/-! ### Roots -/

theorem label_columnItems {table : String} {columns : List SelectedColumn} :
    ∀ item ∈ columnItems table columns, ∃ label, item.label = some label :=
  List.forall_mem_map.mpr fun c _ => ⟨c.label, rfl⟩

theorem label_items (node : JoinNode) : ∀ item ∈ node.items, ∃ label, item.label = some label := by
  induction node using JoinNode.children_induction with
  | step node ih =>
    obtain ⟨_, _, _, _, table, _, _, columns, children⟩ := node
    intro item hitem
    rw [JoinNode.items, nodesItems_eq_flatMap] at hitem
    rcases List.mem_append.mp hitem with hown | hbelow
    · exact label_columnItems item hown
    · obtain ⟨child, hchild, hitem⟩ := List.mem_flatMap.mp hbelow
      exact ih child hchild item hitem

theorem label_selectList (tree : JoinTree) (table : String) :
    ∀ item ∈ tree.selectList table, ∃ label, item.label = some label := by
  intro item hitem
  rw [JoinTree.selectList, nodesItems_eq_flatMap] at hitem
  rcases List.mem_append.mp hitem with hown | hbelow
  · exact label_columnItems item hown
  · obtain ⟨node, -, hitem⟩ := List.mem_flatMap.mp hbelow
    exact label_items node item hitem

theorem fst_cell (group : List Tuple) {item : SelectItem} {label : String} (h : item.label = some label) :
    (item.cell sv db group).1 = label := by
  obtain ⟨e, _⟩ := item
  cases h
  rfl

/-- Where no label is used twice, a row has all cells under their labels. -/
theorem reads_cellsOfItems {tree : JoinTree} {table : String} (h : ((tree.selectList table).map (·.label)).Nodup)
    (group : List Tuple) :
    Reads (NameMap.ofPairs (cellsOfItems sv db group (tree.selectList table)))
      (cellsOfItems sv db group (tree.selectList table)) := by
  refine reads_ofPairs (List.Nodup.of_map some ?_)
  have hsame : ((cellsOfItems sv db group (tree.selectList table)).map (·.1)).map some =
      (tree.selectList table).map (·.label) := by
    rw [cellsOfItems_eq_map, List.map_map, List.map_map]
    refine List.map_congr_left fun item hitem => ?_
    obtain ⟨label, hlabel⟩ := label_selectList tree table item hitem
    rw [hlabel, Function.comp_apply, Function.comp_apply, fst_cell group hlabel]
  rwa [hsame]

/-- The cells of a tuple are those of the root row that it shows, and then those of the nodes below. -/
theorem reads_rootCells (h : p.Named) {registry : AliasRegistry}
    (hfrom : PreparedFrom p.schema registry p.request p) {tree : JoinTree} (ht : p.tree = .ok tree)
    (hlabels : ((tree.selectList p.rootTable).map (·.label)).Nodup) (t : Tuple) :
    Reads (NameMap.ofPairs (cellsOfItems sv db [t] (tree.selectList p.rootTable)))
        (recordCells tree.columns (p.rowOf p.bound.resolved t .root)) ∧
      Reads (NameMap.ofPairs (cellsOfItems sv db [t] (tree.selectList p.rootTable)))
        (cellsOfItems sv db [t] (tree.children.flatMap JoinNode.items)) := by
  obtain ⟨-, hcolumns, -, -⟩ := planned_of_tree hfrom ht
  have hreads := @reads_cellsOfItems sv db _ _ hlabels [t]
  generalize NameMap.ofPairs (cellsOfItems sv db [t] (tree.selectList p.rootTable)) = row at hreads ⊢
  have hplace : ∀ column ∈ (p.schema.entity p.request.root).columns.map (·.dbName), p.HasPlace .root column :=
    fun column hc => ⟨fun hne => absurd rfl hne, [], p.request.root, rfl, hc⟩
  unfold JoinTree.selectList at hreads
  rwa [nodesItems_eq_flatMap, cellsOfItems_append, reads_append, hcolumns, cells_columnItems h rfl hplace, ← hcolumns]
    at hreads

theorem nodup_root_fields {registry : AliasRegistry} (hfrom : PreparedFrom p.schema registry p.request p) {tree : JoinTree}
    (ht : p.tree = .ok tree) (hlabels : ((tree.selectList p.rootTable).map (·.label)).Nodup) :
    (tree.columns.map (·.field)).Nodup := by
  obtain ⟨-, hcolumns, -, -⟩ := planned_of_tree hfrom ht
  unfold JoinTree.selectList at hlabels
  rw [List.map_append, hcolumns] at hlabels
  rw [hcolumns]
  exact nodup_fields hlabels.of_append_left

/-- Slicing the cells of a tuple along the tree gives the root instance that the row that it shows shows, if the root's
primary key is selected. -/
theorem ofRow_read (h : p.Named) (hdb : db.Sound sv p.schema) {registry : AliasRegistry}
    (hfrom : PreparedFrom p.schema registry p.request p) {tree : JoinTree} (ht : p.tree = .ok tree)
    (hlabels : ((tree.selectList p.rootTable).map (·.label)).Nodup)
    (hpk : tree.columns.any (·.field == p.rootEntity.pk) = true) {t : Tuple}
    (hfit : p.RowFits db (p.rowOf p.bound.resolved t)) :
    (standardOf p.schema).ofRow tree (NameMap.ofPairs (cellsOfItems sv db [t] (tree.selectList p.rootTable))) =
      .ok (some (tree.read p.schema (p.rowOf p.bound.resolved t))) := by
  obtain ⟨hroot, hcolumns, -, hplanned⟩ := planned_of_tree hfrom ht
  obtain ⟨hrequired, -, hcomplete⟩ := complete_of_tree hfrom ht
  obtain ⟨hreadsOwn, hreadsBelow⟩ := @reads_rootCells sv db p h _ hfrom _ ht hlabels t
  have hown := nodup_root_fields hfrom ht hlabels
  generalize NameMap.ofPairs (cellsOfItems sv db [t] (tree.selectList p.rootTable)) = row at hreadsOwn hreadsBelow ⊢
  obtain ⟨root, columns, children⟩ := tree
  dsimp only at hroot hcolumns hplanned hrequired hcomplete hpk hreadsOwn hreadsBelow hown
  subst hroot hcolumns
  unfold JoinTree.selectList at hlabels
  rw [nodesItems_eq_flatMap, List.map_append] at hlabels
  have hchildren : ∀ child ∈ children,
      (standardOf p.schema).ofNode row child = .ok (child.read p.schema (p.rowOf p.bound.resolved t)) :=
    fun child hchild => ofNode_read h hdb (hplanned child hchild) (hcomplete child hchild)
      (nodup_items_of_mem hlabels.of_append_right hchild) hfit (reads_items_of_mem hreadsBelow hchild)
  rw [Materializer.ofRow]
  dsimp only
  rw [ofNodes_read hchildren, JoinTree.read]
  refine assemble_standard (fieldsFit_instanceOf h.schema hdb h.root hown hfit.root hpk) ?_ (fun _ => hrequired) _
  rw [cellsOf_instanceOf hown]
  exact hreadsOwn

/-- Where slicing the cells of a tuple succeeds, it gives an instance with the fields of the root row that the tuple
shows, if this has a key. -/
theorem fields_of_ofRow (h : p.Named) {registry : AliasRegistry}
    (hfrom : PreparedFrom p.schema registry p.request p) {tree : JoinTree} (ht : p.tree = .ok tree)
    (hlabels : ((tree.selectList p.rootTable).map (·.label)).Nodup)
    (hpk : tree.columns.any (·.field == p.rootEntity.pk) = true) {t : Tuple}
    (hkey : p.rootEntity.key (p.rowOf p.bound.resolved t .root) ≠ .null) {found : Option Instance}
    (hfound : (standardOf p.schema).ofRow tree (NameMap.ofPairs (cellsOfItems sv db [t] (tree.selectList p.rootTable))) =
      .ok found) :
    ∃ i, found = some i ∧ i.entity = p.request.root ∧
      i.fields = p.rootEntity.fieldsOf tree.columns (p.rowOf p.bound.resolved t .root) := by
  obtain ⟨hroot, hcolumns, -, -⟩ := planned_of_tree hfrom ht
  obtain ⟨hreads, -⟩ := @reads_rootCells sv db p h _ hfrom _ ht hlabels t
  have hown := nodup_root_fields hfrom ht hlabels
  unfold Materializer.ofRow at hfound
  rw [hroot, hcolumns] at hfound
  rw [hcolumns] at hreads hown hpk
  have hshown : hasKey (NameMap.ofPairs (cellsOfItems sv db [t] (tree.selectList p.rootTable)))
      (p.schema.entity p.request.root)
      (selectColumns (p.schema.entity p.request.root) p.bound.projection none) = true := by
    rw [hasKey_of_reads (h.schema.hasField_pk h.root) hown hreads]
    exact Bool.and_eq_true_iff.mpr ⟨hpk, (Bool.not_eq_true' _).mpr
      (Bool.eq_false_iff.mpr fun hnull => hkey (Value.isNull_eq_true.mp hnull))⟩
  obtain ⟨i, rfl, hentity, hfields⟩ := fields_of_assemble hfound hshown
  refine ⟨i, rfl, hentity, hfields.trans ?_⟩
  rw [rowValues_record hown hreads, hcolumns]
  rfl

theorem key_read (h : p.Named) {registry : AliasRegistry}
    (hfrom : PreparedFrom p.schema registry p.request p) {tree : JoinTree} (ht : p.tree = .ok tree)
    (hpk : tree.columns.any (·.field == p.rootEntity.pk) = true) (row : Joined) :
    (tree.read p.schema row).key p.schema = (p.request.root, p.rootEntity.key (row .root)) := by
  obtain ⟨hroot, -, -, -⟩ := planned_of_tree hfrom ht
  obtain ⟨root, columns, children⟩ := tree
  dsimp only at hroot hpk
  subst hroot
  exact congrArg (Prod.mk p.request.root) (pk_instanceOf (h.schema.hasField_pk h.root) hpk _)

theorem ordered_loading_of_joined {columns : List SelectedColumn} {i : Instance} (hf : NameMap.Ordered i.fields)
    {joined : List (String × Related)} (hj : ∀ q ∈ joined, ∀ c ∈ q.2.instances, c.Ordered) :
    (i.loading s columns joined).Ordered := by
  have hrel : NameMap.Ordered (i.loading s columns joined).relations := NameMap.ordered_ofFirst _
  refine Instance.ordered_iff.mpr ⟨hf, hrel, ?_⟩
  rintro ⟨name, r⟩ hp c hc
  have hget : (i.loading s columns joined).related? name = some r := hrel.get?_eq_some_iff.mpr hp
  rw [related?_loading] at hget
  rcases Option.or_eq_some_iff.mp hget with hloaded | ⟨-, hstub⟩
  · exact hj (name, r) (NameMap.mem_of_get? hloaded) c hc
  · obtain ⟨target, key, rfl⟩ := exists_of_get?_stubsOf hstub
    unfold stubOf at hc
    split at hc
    · cases hc
    · rw [List.mem_singleton.mp hc]
      exact ordered_stub target _ key

theorem ordered_nodesRead {row : Joined} {nodes : List JoinNode}
    (h : ∀ node ∈ nodes, ∀ i, node.read s row = some i → i.Ordered) :
    ∀ q ∈ nodesRead s row nodes, ∀ c ∈ q.2.instances, c.Ordered := by
  induction nodes with
  | nil => exact fun q hq => absurd hq List.not_mem_nil
  | cons node rest ih =>
    obtain ⟨hnode, hrest⟩ := List.forall_mem_cons.mp h
    rw [nodesRead]
    refine List.forall_mem_cons.mpr ⟨fun c hc => ?_, ih hrest⟩
    rw [instances_relatedOf, Option.mem_toList] at hc
    exact hnode c hc

theorem ordered_node_read {row : Joined} (node : JoinNode) : ∀ i, node.read s row = some i → i.Ordered := by
  induction node using JoinNode.children_induction with
  | step node ih =>
    obtain ⟨_, _, path, target, _, _, _, columns, children⟩ := node
    intro i hi
    rw [JoinNode.read] at hi
    split at hi
    · cases hi
      exact ordered_loading_of_joined (NameMap.ordered_ofPairs _) (ordered_nodesRead ih)
    · cases hi

theorem ordered_read (tree : JoinTree) (row : Joined) : (tree.read s row).Ordered :=
  ordered_loading_of_joined (NameMap.ordered_ofPairs _) (ordered_nodesRead fun node _ => ordered_node_read node)

end RelQuery
