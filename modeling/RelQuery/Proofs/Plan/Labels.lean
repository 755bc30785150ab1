import RelQuery.Proofs.Alias.Assign
import RelQuery.Proofs.Plan.Wanted
import RelQuery.Proofs.Rows.Materialize

/-!
# Labels of selected columns

The columns of the root are labelled by field, all others by the alias of their table and field. Aliases hold no
underscore, so a label tells the two apart, and tables share an alias only if their paths are written alike. What is
left are four ways in which two columns can get one label. Where none of them occurs, every column has its own value in
a row that is keyed by labels.
-/

namespace RelQuery

open Sql

variable {s : Schema} {settings : Settings} {registry registry' : AliasRegistry} {r : Request} {planned : PlannedQuery}

/-- The fields of the root that are selected. -/
def JoinTree.fields (t : JoinTree) : List String := t.columns.map (·.field)

/-- The fields of the entity at a node that are selected. -/
def JoinNode.fields (node : JoinNode) : List String := node.columns.map (·.field)

/-- Fields and paths are enough to tell the selected columns apart. -/
structure JoinTree.TellsApart (t : JoinTree) : Prop where
  /-- No field of the root is selected twice. -/
  root : t.fields.Nodup
  /-- No field of a joined entity is selected twice. -/
  nodes : ∀ node ∈ t.nodes, node.fields.Nodup
  /-- Different paths that are written alike have no field in common. -/
  written : ∀ node ∈ t.nodes, ∀ other ∈ t.nodes, node.path ≠ other.path → node.path.text = other.path.text →
    node.fields.Disjoint other.fields
  /-- No field of the root is called what a column of a joined entity is labelled. -/
  labelled : ∀ node ∈ t.nodes, ∀ field ∈ node.fields, node.table.label field ∉ t.fields

/-- What the labels of a tree rest on. -/
structure JoinTree.Labels (t : JoinTree) : Prop where
  columns : ∀ c ∈ t.columns, c.label = c.field
  nodes : ∀ node ∈ t.nodes, ∀ c ∈ node.columns, c.label = node.table.label c.field
  plain : ∀ node ∈ t.nodes, node.table.IsPlain
  once : (t.nodes.map (·.path)).Nodup
  table : ∀ node ∈ t.nodes, ∀ other ∈ t.nodes, node.table = other.table ↔ node.path.text = other.path.text

theorem JoinTree.map_label_selectList {t : JoinTree} (h : t.Labels) (rootTable : String) :
    (t.selectList rootTable).map (·.label) =
      (t.fields ++ t.nodes.flatMap fun node => node.fields.map node.table.label).map some := by
  have hroot : (columnItems rootTable t.columns).map (·.label) = t.fields.map some := by
    unfold columnItems fields
    rw [List.map_map, List.map_map]
    exact List.map_congr_left fun c hc => congrArg some (h.columns c hc)
  have hnode (node : JoinNode) (hn : node ∈ t.nodes) :
      node.ownItems.map (·.label) = (node.fields.map node.table.label).map some := by
    unfold JoinNode.ownItems columnItems JoinNode.fields
    rw [List.map_map, List.map_map, List.map_map]
    exact List.map_congr_left fun c hc => congrArg some (h.nodes node hn c hc)
  rw [selectList_eq_nodes, List.map_append, List.map_append, hroot, List.map_flatMap, List.map_flatMap]
  exact congrArg _ (List.flatMap_congr hnode)

/-- Labels are distinct just if fields and paths tell the columns apart. -/
theorem JoinTree.nodup_labels_iff {t : JoinTree} (h : t.Labels) (rootTable : String) :
    ((t.selectList rootTable).map (·.label)).Nodup ↔ t.TellsApart := by
  rw [map_label_selectList h, List.nodup_map_iff (Option.some_injective _), List.nodup_append', List.nodup_flatMap]
  have hsymm : Std.Symm (Function.onFun List.Disjoint fun node : JoinNode => node.fields.map node.table.label) :=
    ⟨fun _ _ hd _ hl hr => hd hr hl⟩
  -- labels of one table differ by the field, labels of two tables by the text of the table
  constructor
  · rintro ⟨hroot, ⟨hnodes, hpairs⟩, happart⟩
    refine ⟨hroot, fun node hn => (hnodes node hn).of_map _, fun node hn other ho hne htext => ?_,
      fun node hn field hfield hmem => ?_⟩
    · refine List.disjoint_left.mpr fun field hfield hfield' => ?_
      have hdisjoint := hpairs.forall hn ho fun he => hne (congrArg JoinNode.path he)
      refine List.disjoint_left.mp hdisjoint (List.mem_map_of_mem hfield) ?_
      rw [(h.table node hn other ho).mpr htext]
      exact List.mem_map_of_mem hfield'
    · exact List.disjoint_left.mp happart hmem (List.mem_flatMap.mpr ⟨node, hn, List.mem_map_of_mem hfield⟩)
  · rintro ⟨hroot, hnodes, hwritten, hlabelled⟩
    refine ⟨hroot, ⟨fun node hn => ?_, ?_⟩, ?_⟩
    · exact (hnodes node hn).map fun a b he => (Alias.label_inj (h.plain node hn) (h.plain node hn) he).2
    · refine (List.pairwise_map.mp h.once).imp_of_mem fun {node other} hn ho hne => ?_
      refine List.disjoint_left.mpr fun label hlabel hlabel' => ?_
      obtain ⟨field, hfield, rfl⟩ := List.mem_map.mp hlabel
      obtain ⟨field', hfield', he⟩ := List.mem_map.mp hlabel'
      obtain ⟨htable, rfl⟩ := Alias.label_inj (h.plain other ho) (h.plain node hn) he
      have htext := (h.table node hn other ho).mp htable.symm
      exact List.disjoint_left.mp (hwritten node hn other ho hne htext) hfield hfield'
    · refine List.disjoint_left.mpr fun label hmem hlabel => ?_
      obtain ⟨node, hn, hlabel⟩ := List.mem_flatMap.mp hlabel
      obtain ⟨field, hfield, rfl⟩ := List.mem_map.mp hlabel
      exact hlabelled node hn field hfield hmem

/-- The columns of a planned tree are labelled by field, or by the aliases that its paths have. -/
theorem labels_of_plan (hr : registry.Reachable) (h : r.plan s settings registry = (.ok planned, registry')) :
    planned.tree.Labels := by
  obtain ⟨hcolumns, hown⟩ := selectedColumns_of_plan h
  obtain ⟨bound, aliases, hbind, hassign, -, htree, -⟩ := source_of_plan h
  have hj := (boundFrom_of_bind hbind).joined
  have hnamed (node : JoinNode) (hn : node ∈ planned.tree.nodes) :
      ∃ a, aliases.get? node.path = some a ∧ node.table = a.target := by
    obtain ⟨parent, t, a, hstands⟩ := exists_stands_of_tree hj htree hn
    obtain ⟨-, -, -, hnamed, htable, -⟩ := hstands.holds hj
    exact ⟨a, hnamed, htable⟩
  refine ⟨?_, fun node hn => ?_, fun node hn => ?_, nodup_paths_of_tree hj htree, fun node hn other ho => ?_⟩
  · rw [hcolumns]
    exact List.forall_mem_map.mpr fun c _ => rfl
  · rw [hown node hn]
    exact List.forall_mem_map.mpr fun c _ => rfl
  · obtain ⟨a, ha, htable⟩ := hnamed node hn
    rw [htable]
    exact isPlain_of_assign hr hassign ha
  · obtain ⟨a, ha, hatable⟩ := hnamed node hn
    obtain ⟨b, hb, hbtable⟩ := hnamed other ho
    rw [hatable, hbtable]
    refine ⟨text_eq_of_target hassign ha hb, fun htext => ?_⟩
    unfold AliasPlan.get? at ha hb
    rw [htext, hb] at ha
    exact congrArg JoinAlias.target (Option.some.inj ha).symm

/-- The value of a field is under the label of its column, if there is only one for it. -/
theorem rowValue?_of_mem {row : Row} {columns : List SelectedColumn} (hnodup : (columns.map (·.field)).Nodup)
    {c : SelectedColumn} (hc : c ∈ columns) : rowValue? row columns c.field = row.get? c.label := by
  unfold rowValue?
  rcases hfind : columns.find? (·.field == c.field) with - | found
  · exact absurd (beq_self_eq_true c.field) (List.find?_eq_none.mp hfind c hc)
  · have hfield := List.find?_some hfind
    obtain rfl := List.inj_on_of_nodup_map hnodup (List.mem_of_find?_eq_some hfind) hc (eq_of_beq hfield)
    rw [hfind, Option.bind_some]

/-- The row that has the value of each selected item under its label. -/
def rowOfItems (items : List SelectItem) (value : SelectItem → Value) : Row :=
  NameMap.ofPairs (items.map fun item => (item.label.getD "", value item))

theorem get?_rowOfItems {items : List SelectItem} (hlabels : (items.map (·.label)).Nodup) (value : SelectItem → Value)
    {item : SelectItem} {label : String} (hitem : item ∈ items) (hlabel : item.label = some label)
    (hall : ∀ other ∈ items, ∃ label, other.label = some label) :
    (rowOfItems items value).get? label = some (value item) := by
  have hnodup : (items.map fun item => item.label.getD "").Nodup := by
    refine List.Nodup.of_map some ?_
    rw [List.map_map]
    have hsame : items.map (some ∘ fun item => item.label.getD "") = items.map (·.label) :=
      List.map_congr_left fun other hother => by
        obtain ⟨label', hlabel'⟩ := hall other hother
        rw [Function.comp_apply, hlabel', Option.getD_some]
    rwa [hsame]
  refine NameMap.get?_ofPairs_of_mem (by rwa [List.map_map]) (List.mem_map.mpr ⟨item, hitem, ?_⟩)
  rw [hlabel, Option.getD_some]

/-- A selected column is read from its own item, where no field of its entity is selected twice. -/
theorem rowValue?_selected {items : List SelectItem} (hlabels : (items.map (·.label)).Nodup)
    (value : SelectItem → Value) (hall : ∀ item ∈ items, ∃ label, item.label = some label) {table : String}
    {columns : List SelectedColumn} (hfields : (columns.map (·.field)).Nodup) (hselected : columnItems table columns ⊆ items)
    {c : SelectedColumn} (hc : c ∈ columns) :
    rowValue? (rowOfItems items value) columns c.field = some (value ⟨.col table c.dbName, some c.label⟩) := by
  rw [rowValue?_of_mem hfields hc]
  exact get?_rowOfItems hlabels value (hselected (List.mem_map_of_mem hc)) rfl hall

/-- In a row keyed by labels every selected item has its own value, and every instance is read from the columns of its
own table, whatever the values are. -/
structure PlannedQuery.ReadsOwn (planned : PlannedQuery) (rootTable : String) (value : SelectItem → Value) : Prop where
  items : ∀ item ∈ planned.query.select, ∃ label, item.label = some label ∧
    (rowOfItems planned.query.select value).get? label = some (value item)
  root : ∀ c ∈ planned.tree.columns, rowValue? (rowOfItems planned.query.select value) planned.tree.columns c.field =
    some (value ⟨.col rootTable c.dbName, some c.label⟩)
  nodes : ∀ node ∈ planned.tree.nodes, ∀ c ∈ node.columns,
    rowValue? (rowOfItems planned.query.select value) node.columns c.field =
      some (value ⟨.col node.table.text c.dbName, some c.label⟩)

/-- Labels of planned columns are distinct just if fields and paths tell the columns apart, and then every column is
read as what its own table has. -/
theorem labels_distinct_iff (hr : registry.Reachable) (h : r.plan s settings registry = (.ok planned, registry')) :
    ((planned.query.select.map (·.label)).Nodup ↔ planned.tree.TellsApart) ∧
      (planned.tree.TellsApart → ∀ value : SelectItem → Value, planned.ReadsOwn (s.entity r.root).table value) := by
  have htree := labels_of_plan hr h
  obtain ⟨-, -, -, -, -, -, hselect⟩ := source_of_plan h
  have hiff := JoinTree.nodup_labels_iff htree (s.entity r.root).table
  rw [← hselect] at hiff
  refine ⟨hiff, fun hapart value => ?_⟩
  have hlabels := hiff.mpr hapart
  have hall : ∀ item ∈ planned.query.select, ∃ label, item.label = some label := by
    intro item hitem
    have hmem : item.label ∈ planned.query.select.map (·.label) := List.mem_map_of_mem hitem
    rw [hselect, JoinTree.map_label_selectList htree] at hmem
    obtain ⟨label, -, hlabel⟩ := List.mem_map.mp hmem
    exact ⟨label, hlabel.symm⟩
  refine ⟨fun item hitem => ?_, fun c hc => ?_, fun node hn c hc => ?_⟩
  · obtain ⟨label, hlabel⟩ := hall item hitem
    exact ⟨label, hlabel, get?_rowOfItems hlabels value hitem hlabel hall⟩
  · refine rowValue?_selected hlabels value hall hapart.root ?_ hc
    rw [hselect, JoinTree.selectList_eq_nodes]
    exact List.subset_append_left _ _
  · refine rowValue?_selected hlabels value hall (hapart.nodes node hn) (fun item hitem => ?_) hc
    rw [hselect, JoinTree.selectList_eq_nodes]
    exact List.mem_append_right _ (List.mem_flatMap.mpr ⟨node, hn, hitem⟩)

/-- The books of peers have one joined table, and no column of theirs is labelled like one of the authors. -/
theorem labels_distinct_booksOfPeers :
    ∃ planned registry', (AliasRegistry.empty 6).Reachable ∧
      booksOfPeers.plan authorSchema {} (.empty 6) = (.ok planned, registry') ∧
      (planned.query.select.map (·.label)).Nodup ∧
      planned.tree.TellsApart ∧ ∀ value : SelectItem → Value, planned.ReadsOwn "books" value := by
  have hdistinct : (booksOfPeers.plan authorSchema {} (.empty 6)).1.map
      (fun planned => decide (planned.query.select.map (·.label)).Nodup) = .ok true := by
    decide +kernel
  obtain ⟨planned, hok, hlabels⟩ := map_eq_ok.mp hdistinct
  rcases hplan : booksOfPeers.plan authorSchema {} (.empty 6) with ⟨result, registry'⟩
  rw [hplan] at hok
  obtain rfl : result = .ok planned := hok
  have hreachable := AliasRegistry.Reachable.empty 6
  have hlabels := of_decide_eq_true hlabels
  obtain ⟨hiff, hreads⟩ := labels_distinct_iff hreachable hplan
  exact ⟨planned, registry', hreachable, rfl, hlabels, hiff.mp hlabels, hreads (hiff.mp hlabels)⟩

/-- Parcels lie in a box and in a crate, which each have an owner. The paths to the owners are written alike. -/
def parcelEntities : List EntityDecl :=
  [⟨"Parcel", "parcels", some "id", [⟨"id", "id", false⟩, ⟨"box_id", "box_id", false⟩, ⟨"crate_id", "crate_id", false⟩],
     by decide⟩,
   ⟨"Box", "boxes", some "id", [⟨"id", "id", false⟩, ⟨"owner_id", "owner_id", false⟩], by decide⟩,
   ⟨"Crate", "crates", some "id", [⟨"id", "id", false⟩, ⟨"owner_id", "owner_id", false⟩], by decide⟩,
   ⟨"Owner", "owners", some "id", [⟨"id", "id", false⟩, ⟨"phone", "phone", true⟩], by decide⟩]

def parcelRelations : List RelationDecl :=
  [⟨"Parcel", "a_", "Box", .foreignKey "box_id", true, none⟩,
   ⟨"Parcel", "a", "Crate", .foreignKey "crate_id", true, none⟩,
   ⟨"Box", "b", "Owner", .foreignKey "owner_id", true, none⟩,
   ⟨"Crate", "_b", "Owner", .foreignKey "owner_id", true, none⟩]

def ownersOfParcels : Request := { root := ⟨0⟩, selectRelated := [⟨["a_", "b"]⟩, ⟨["a", "_b"]⟩] }

/-- The aliases of the two paths are kept under one text, so both owners are read under one label. -/
theorem labels_not_distinct :
    ∃ parcels planned registry', Schema.build parcelEntities parcelRelations = .ok parcels ∧
      (AliasRegistry.empty 6).Reachable ∧ ownersOfParcels.plan parcels {} (.empty 6) = (.ok planned, registry') ∧
      planned.tree.nodes.map (fun node => (node.path.segments, node.table.text)) =
        [(["a_"], "e86dc5"), (["a_", "b"], "9b4cc3"), (["a"], "8082be"), (["a", "_b"], "9b4cc3")] ∧
      ¬(planned.query.select.map (·.label)).Nodup := by
  have hfound : (Schema.build parcelEntities parcelRelations).map (fun parcels =>
      (ownersOfParcels.plan parcels {} (.empty 6)).1.map fun planned =>
        (planned.tree.nodes.map (fun node => (node.path.segments, node.table.text)),
          decide (planned.query.select.map (·.label)).Nodup)) =
      .ok (.ok ([(["a_"], "e86dc5"), (["a_", "b"], "9b4cc3"), (["a"], "8082be"), (["a", "_b"], "9b4cc3")], false)) := by
    decide +kernel
  obtain ⟨parcels, hbuild, hplanned⟩ := map_eq_ok.mp hfound
  obtain ⟨planned, hok, hfound⟩ := map_eq_ok.mp hplanned
  rcases hplan : ownersOfParcels.plan parcels {} (.empty 6) with ⟨result, registry'⟩
  rw [hplan] at hok
  obtain rfl : result = .ok planned := hok
  obtain ⟨hnodes, hlabels⟩ := Prod.mk.inj hfound
  exact ⟨parcels, planned, registry', hbuild, .empty 6, hplan, hnodes, of_decide_eq_false hlabels⟩

end RelQuery
