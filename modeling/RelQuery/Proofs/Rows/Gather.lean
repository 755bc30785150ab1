import RelQuery.Proofs.Rows.Read
import RelQuery.Proofs.Rows.Reconstruct

/-!
# What joined rows show together

Each joined row shows one instance of everything joined. Merged, joined rows show at each node one instance for every
row of its entity, in order of first appearance, with what just the joined rows of that one show below. This takes two
things of the rows: keys tell the rows of an entity apart, and a relation to one leads to one row.
-/

namespace RelQuery

open Sql

variable {s : Schema}

/-- What a relation is loaded as. -/
def Related.of (toMany : Bool) (l : List Instance) : Related := if toMany then .many l else .one l.head?

mutual

/-- The instances that joined rows show at a node, one for each row of its entity. -/
def JoinNode.gather (s : Schema) : JoinNode → List Joined → List Instance
  | ⟨_, _, path, target, _, _, _, columns, children⟩, rows =>
    ((distinct (rows.map (· path))).filter ((s.entity target).shows columns)).map fun r =>
      (instanceOf s target columns r).loading s columns
        (nodesGather s children (rows.filter fun row => row path = r))
termination_by structural node => node

def nodesGather (s : Schema) : List JoinNode → List Joined → List (String × Related)
  | [], _ => []
  | node :: rest, rows => (node.name, Related.of node.toMany (node.gather s rows)) :: nodesGather s rest rows
termination_by structural nodes => nodes

end

/-- The root instances that joined rows show. -/
def JoinTree.gather (s : Schema) (t : JoinTree) (rows : List Joined) : List Instance :=
  (distinct (rows.map fun row => row .root)).map fun r =>
    (instanceOf s t.root t.columns r).loading s t.columns
      (nodesGather s t.children (rows.filter fun row => row .root = r))

theorem JoinNode.gather_eq (node : JoinNode) (rows : List Joined) :
    node.gather s rows =
      ((distinct (rows.map (· node.path))).filter ((s.entity node.target).shows node.columns)).map fun r =>
        (instanceOf s node.target node.columns r).loading s node.columns
          (nodesGather s node.children (rows.filter fun row => row node.path = r)) := by
  cases node
  rfl

theorem JoinNode.read_eq (node : JoinNode) (row : Joined) :
    node.read s row =
      if (s.entity node.target).shows node.columns (row node.path) then
        some ((instanceOf s node.target node.columns (row node.path)).loading s node.columns
          (nodesRead s row node.children))
      else none := by
  cases node
  rfl

theorem map_fst_nodesRead (row : Joined) (nodes : List JoinNode) :
    (nodesRead s row nodes).map (·.1) = nodes.map (·.name) := by
  induction nodes with
  | nil => rfl
  | cons node rest ih => simp [nodesRead, ih]

theorem nodesRead_eq_map (row : Joined) (nodes : List JoinNode) :
    nodesRead s row nodes =
      nodes.map fun node => (node.name, Materializer.relatedOf node.toMany (node.read s row)) := by
  induction nodes with
  | nil => rfl
  | cons node rest ih => simp [nodesRead, ih]

theorem nodesGather_eq_map (nodes : List JoinNode) (rows : List Joined) :
    nodesGather s nodes rows = nodes.map fun node => (node.name, Related.of node.toMany (node.gather s rows)) := by
  induction nodes with
  | nil => rfl
  | cons node rest ih => simp [nodesGather, ih]

/-! ### Merging by rows -/

section

variable {path : Path} {shows : Record → Bool} {key : Record → EntityId × Value} {make : Joined → Instance}
  {rows : List Joined}

/-- Of the instances that rows make, those with one key are made by the rows that agree on the path. -/
theorem filter_key_make (hkey : ∀ row ∈ rows, shows (row path) = true → (make row).key s = key (row path))
    (hinj : ∀ row ∈ rows, ∀ row' ∈ rows, shows (row path) = true → shows (row' path) = true →
      key (row path) = key (row' path) → row path = row' path)
    {row : Joined} (hrow : row ∈ rows) (hshows : shows (row path) = true) :
    ((rows.filter fun row => shows (row path)).map make).filter (fun i => i.key s = key (row path)) =
      (rows.filter fun other => other path = row path).map make := by
  rw [List.filter_map, List.filter_filter]
  congr 1
  refine List.filter_congr fun other hother => ?_
  rw [Function.comp_apply]
  by_cases he : other path = row path
  · have hshown : shows (other path) = true := by rw [he]; exact hshows
    rw [hkey other hother hshown]
    simp [he, hshows]
  · by_cases hshown : shows (other path) = true
    · have hne : ¬(make other).key s = key (row path) := fun h =>
        he (hinj other hother row hrow hshown hshows ((hkey other hother hshown).symm.trans h))
      simp [he, hne]
    · simp [he, hshown]

/-- Instances that rows make, the key of each that of the row at a path, merge row by row of that path. -/
theorem merge_map_rows {result : Record → Instance}
    (hkey : ∀ row ∈ rows, shows (row path) = true → (make row).key s = key (row path))
    (hinj : ∀ row ∈ rows, ∀ row' ∈ rows, shows (row path) = true → shows (row' path) = true →
      key (row path) = key (row' path) → row path = row' path)
    (hmerge : ∀ r ∈ rows.map (· path), shows r = true →
      ∀ m, MergeOf s ((rows.filter fun row => row path = r).map make) m → m.tidy s = result r) :
    merge s ((rows.filter fun row => shows (row path)).map make) =
      ((distinct (rows.map (· path))).filter shows).map result := by
  have hrecords : (rows.filter fun row => shows (row path)).map (· path) = (rows.map (· path)).filter shows := by
    rw [List.filter_map]
    rfl
  have hkeys : ((rows.filter fun row => shows (row path)).map make).map (·.key s) =
      ((rows.map (· path)).filter shows).map key := by
    rw [← hrecords, List.map_map, List.map_map]
    refine List.map_congr_left fun row hrow => ?_
    obtain ⟨hmem, hshows⟩ := List.mem_filter.mp hrow
    exact hkey row hmem hshows
  have hmem : ∀ r ∈ (rows.map (· path)).filter shows, ∃ row ∈ rows, shows (row path) = true ∧ row path = r := by
    intro r hr
    obtain ⟨hr, hshows⟩ := List.mem_filter.mp hr
    obtain ⟨row, hrow, rfl⟩ := List.mem_map.mp hr
    exact ⟨row, hrow, hshows, rfl⟩
  have hinjective : ∀ a ∈ (rows.map (· path)).filter shows, ∀ b ∈ (rows.map (· path)).filter shows,
      key a = key b → a = b := by
    intro a ha b hb he
    obtain ⟨row, hrow, hshows, rfl⟩ := hmem a ha
    obtain ⟨row', hrow', hshows', rfl⟩ := hmem b hb
    exact hinj row hrow row' hrow' hshows hshows' he
  rw [merge_eq, mergeThen, groupByKey, hkeys, distinct_map_of_injective hinjective, distinct_filter, List.map_map,
    List.filterMap_map]
  refine List.filterMap_eq_map_iff_forall_eq_some.mpr fun r hr => ?_
  have hr' : r ∈ (rows.map (· path)).filter shows := by
    rw [← distinct_filter] at hr
    exact mem_distinct.mp hr
  obtain ⟨row, hrow, hshows, rfl⟩ := hmem r hr'
  have hne : (rows.filter fun other => other path = row path).map make ≠ [] := by
    have hin : row ∈ rows.filter fun other => other path = row path := List.mem_filter.mpr ⟨hrow, decide_eq_true rfl⟩
    exact List.ne_nil_of_mem (List.mem_map_of_mem hin)
  obtain ⟨m, hm, hof⟩ := mergeGroup?_mergeOf (s := s) hne
  simp only [Function.comp_apply, filter_key_make hkey hinj hrow hshows, hm, Option.map_some,
    hmerge _ (List.mem_map_of_mem hrow) hshows m hof]

end

/-- At the node and below it, keys tell the rows of the entity apart, and a relation to one leads to one row. -/
inductive JoinNode.Tells (s : Schema) (rows : List Joined) : Path → JoinNode → Prop where
  | intro {parent : Path} {node : JoinNode} (pk : (s.entity node.target).hasField (s.entity node.target).pk = true)
      (keys : ∀ row ∈ rows, ∀ row' ∈ rows,
        (s.entity node.target).key (row node.path) = (s.entity node.target).key (row' node.path) →
        row node.path = row' node.path)
      (single : node.toMany = false → ∀ row ∈ rows, ∀ row' ∈ rows, row parent = row' parent →
        row node.path = row' node.path)
      (names : (node.children.map (·.name)).Nodup) (below : ∀ child ∈ node.children, child.Tells s rows node.path) :
      node.Tells s rows parent

/-- The instance that a joined row shows at a node where it shows one. -/
def JoinNode.shown (s : Schema) (node : JoinNode) (row : Joined) : Instance :=
  (instanceOf s node.target node.columns (row node.path)).loading s node.columns (nodesRead s row node.children)

/-- Merging what joined rows show at a node, for one row of its entity, gives what they show together. -/
def JoinNode.Merges (s : Schema) (all : List Joined) (node : JoinNode) : Prop :=
  ∀ rows ⊆ all, ∀ r, (∀ row ∈ rows, row node.path = r) → ∀ m, MergeOf s (rows.map (node.shown s)) m →
    m.tidy s = (instanceOf s node.target node.columns r).loading s node.columns (nodesGather s node.children rows)

theorem filterMap_read (node : JoinNode) (rows : List Joined) :
    rows.filterMap (node.read s) =
      (rows.filter fun row => (s.entity node.target).shows node.columns (row node.path)).map (node.shown s) := by
  rw [← List.filterMap_eq_map, List.filterMap_filter]
  refine List.filterMap_congr fun row _ => ?_
  rw [node.read_eq]
  rfl

theorem key_shown {node : JoinNode} (hpk : (s.entity node.target).hasField (s.entity node.target).pk = true) {row : Joined}
    (hshows : (s.entity node.target).shows node.columns (row node.path) = true) :
    (node.shown s row).key s = (node.target, (s.entity node.target).key (row node.path)) := by
  have hselected := (Bool.and_eq_true_iff.mp hshows).1
  exact Prod.ext rfl (pk_instanceOf hpk hselected _)

variable {all rows : List Joined} {parent : Path} {node : JoinNode}

theorem merge_read_node (htells : node.Tells s all parent) (hmerges : node.Merges s all) (hsub : rows ⊆ all) :
    merge s (rows.filterMap (node.read s)) = node.gather s rows := by
  obtain ⟨hpk, hkeys, -, -, -⟩ := htells
  rw [filterMap_read, node.gather_eq]
  refine @merge_map_rows s node.path _ (fun r => (node.target, (s.entity node.target).key r)) _ _ _
    (fun row _ hshows => key_shown hpk hshows) ?_ ?_
  · intro row hrow row' hrow' _ _ he
    exact hkeys row (hsub hrow) row' (hsub hrow') (Prod.mk.inj he).2
  · intro r _ _ m hm
    refine hmerges _ (fun row hrow => hsub (List.mem_filter.mp hrow).1) r (fun row hrow => ?_) m hm
    exact of_decide_eq_true (List.mem_filter.mp hrow).2

/-! ### One level -/

theorem related?_loading_read {nodes : List JoinNode} (hnames : (nodes.map (·.name)).Nodup) (hn : node ∈ nodes)
    (columns : List SelectedColumn) (i : Instance) (row : Joined) :
    (i.loading s columns (nodesRead s row nodes)).related? node.name =
      some (Materializer.relatedOf node.toMany (node.read s row)) := by
  have hmem : (node.name, Materializer.relatedOf node.toMany (node.read s row)) ∈ nodesRead s row nodes := by
    rw [nodesRead_eq_map]
    exact List.mem_map_of_mem hn
  rw [related?_loading, NameMap.get?_of_mem (by rw [map_fst_nodesRead]; exact hnames) hmem, Option.some_or]

theorem flatMap_relatedBy {nodes : List JoinNode} (hnames : (nodes.map (·.name)).Nodup) (hn : node ∈ nodes)
    {columns : List SelectedColumn} {i : Instance} (rows : List Joined) :
    (rows.map fun row => i.loading s columns (nodesRead s row nodes)).flatMap (·.relatedBy node.name) =
      rows.filterMap (node.read s) := by
  rw [List.flatMap_map, List.filterMap_eq_flatMap_toList]
  refine List.flatMap_congr fun row _ => ?_
  rw [Instance.relatedBy_of_related? (related?_loading_read hnames hn columns i row), instances_relatedOf]

theorem get?_nodesGather {nodes : List JoinNode} (hnames : (nodes.map (·.name)).Nodup) (hn : node ∈ nodes)
    (rows : List Joined) :
    NameMap.get? (nodesGather s nodes rows) node.name = some (Related.of node.toMany (node.gather s rows)) := by
  rw [nodesGather_eq_map]
  refine NameMap.get?_of_mem ?_ (List.mem_map_of_mem (f := fun node =>
    (node.name, Related.of node.toMany (node.gather s rows))) hn)
  rwa [List.map_map]

theorem related?_tidy_of_many {nodes : List JoinNode} (hnames : (nodes.map (·.name)).Nodup) (hn : node ∈ nodes)
    (htells : node.Tells s all parent) (hmerges : node.Merges s all) (hsub : rows ⊆ all) (htoMany : node.toMany = true)
    {columns : List SelectedColumn} {i m : Instance}
    (ho : ∀ a ∈ rows.map (fun row => i.loading s columns (nodesRead s row nodes)), a.Ordered)
    (hm : MergeOf s (rows.map fun row => i.loading s columns (nodesRead s row nodes)) m) :
    (m.related? node.name).map (Related.tidy s) = some (.many (node.gather s rows)) := by
  have hmany : ∀ a ∈ rows.map (fun row => i.loading s columns (nodesRead s row nodes)),
      ∃ children, a.related? node.name = some (.many children) := by
    intro a ha
    obtain ⟨row, -, rfl⟩ := List.mem_map.mp ha
    exact ⟨_, by rw [related?_loading_read hnames hn, htoMany]; rfl⟩
  rw [hm.related?_many ho hmany, flatMap_relatedBy hnames hn, Option.map_some, Related.tidy,
    merge_read_node htells hmerges hsub]

/-- What merging and tidying gives for a relation to one: all rows lead to one row of the entity, which either shows an
instance or does not. -/
theorem related?_tidy_of_one {nodes : List JoinNode} (hnames : (nodes.map (·.name)).Nodup) (hn : node ∈ nodes)
    (htells : node.Tells s all parent) (hmerges : node.Merges s all) (hsub : rows ⊆ all) {r : Record}
    (hparent : ∀ row ∈ rows, row parent = r) (htoOne : node.toMany = false) {columns : List SelectedColumn}
    {i m : Instance} (ho : ∀ a ∈ rows.map (fun row => i.loading s columns (nodesRead s row nodes)), a.Ordered)
    (hm : MergeOf s (rows.map fun row => i.loading s columns (nodesRead s row nodes)) m) :
    (m.related? node.name).map (Related.tidy s) = some (.one (node.gather s rows).head?) := by
  have hrows : rows ≠ [] := fun he => hm.ne_nil (List.map_eq_nil_iff.mpr he)
  obtain ⟨first, hfirst⟩ := List.exists_mem_of_ne_nil rows hrows
  obtain ⟨hpk, -, hsingle, -, -⟩ := htells
  -- one parent record leads to one record along a relation to one
  have hsame : ∀ row ∈ rows, row node.path = first node.path := fun row hrow =>
    hsingle htoOne row (hsub hrow) first (hsub hfirst) ((hparent row hrow).trans (hparent first hfirst).symm)
  have hdistinct : distinct (rows.map (· node.path)) = [first node.path] := by
    refine distinct_eq_singleton (fun he => hrows (List.map_eq_nil_iff.mp he)) fun r hr => ?_
    obtain ⟨row, hrow, rfl⟩ := List.mem_map.mp hr
    exact hsame row hrow
  rw [node.gather_eq, hdistinct]
  by_cases hshows : (s.entity node.target).shows node.columns (first node.path) = true
  · have hshown : rows.filterMap (node.read s) = rows.map (node.shown s) := by
      rw [filterMap_read, List.filter_eq_self.mpr fun row hrow => by rw [hsame row hrow]; exact hshows]
    have hone : ∀ a ∈ rows.map (fun row => i.loading s columns (nodesRead s row nodes)),
        ∃ c, a.related? node.name = some (.one (some c)) ∧
          c.key s = (node.target, (s.entity node.target).key (first node.path)) := by
      intro a ha
      obtain ⟨row, hrow, rfl⟩ := List.mem_map.mp ha
      have hshows' : (s.entity node.target).shows node.columns (row node.path) = true := by
        rw [hsame row hrow]
        exact hshows
      refine ⟨node.shown s row, ?_, ?_⟩
      · rw [related?_loading_read hnames hn, htoOne, node.read_eq, if_pos hshows']
        rfl
      · rw [key_shown hpk hshows', hsame row hrow]
    obtain ⟨x, hx, -, hof⟩ := hm.related?_one ho hone
    rw [flatMap_relatedBy hnames hn, hshown] at hof
    rw [hx, Option.map_some, Related.tidy, Option.map_some, hmerges rows hsub _ hsame x hof,
      List.filter_cons_of_pos hshows, List.filter_nil, List.map_singleton,
      List.filter_eq_self.mpr fun row hrow => decide_eq_true (hsame row hrow)]
    rfl
  · have hnone : ∀ a ∈ rows.map (fun row => i.loading s columns (nodesRead s row nodes)),
        a.related? node.name = some (.one none) := by
      intro a ha
      obtain ⟨row, hrow, rfl⟩ := List.mem_map.mp ha
      rw [related?_loading_read hnames hn, htoOne, node.read_eq, hsame row hrow, if_neg hshows]
      rfl
    rw [hm.related?_const ho hnone rfl, List.filter_cons_of_neg hshows]
    rfl

/-- Merging what joined rows of one row show, given that this works one relation further, gives what they show
together. -/
theorem tidy_of_mergeOf_rows {nodes : List JoinNode} (hnames : (nodes.map (·.name)).Nodup)
    (htells : ∀ node ∈ nodes, node.Tells s all parent) (hmerges : ∀ node ∈ nodes, node.Merges s all)
    (hsub : rows ⊆ all) {r : Record} (hparent : ∀ row ∈ rows, row parent = r) {columns : List SelectedColumn}
    {i m : Instance} (hi : NameMap.Ordered i.fields)
    (hm : MergeOf s (rows.map fun row => i.loading s columns (nodesRead s row nodes)) m) :
    m.tidy s = i.loading s columns (nodesGather s nodes rows) := by
  have ho : ∀ a ∈ rows.map (fun row => i.loading s columns (nodesRead s row nodes)), a.Ordered :=
    List.forall_mem_map.mpr fun row _ =>
      ordered_loading_of_joined hi (ordered_nodesRead fun node _ => ordered_node_read node)
  refine Instance.ext_related (ordered_tidy (hm.ordered ho)).relations (NameMap.ordered_ofFirst _) ?_ ?_ fun name => ?_
  · rw [tidy_entity]
    exact hm.entity (List.forall_mem_map.mpr fun row _ => rfl)
  · rw [tidy_fields]
    exact hm.fields hi (List.forall_mem_map.mpr fun row _ => rfl)
  · rw [related?_tidy, related?_loading]
    by_cases hname : name ∈ nodes.map (·.name)
    · obtain ⟨node, hn, rfl⟩ := List.mem_map.mp hname
      rw [get?_nodesGather hnames hn, Option.some_or]
      unfold Related.of
      split
      · rename_i htoMany
        exact related?_tidy_of_many hnames hn (htells node hn) (hmerges node hn) hsub htoMany ho hm
      · rename_i htoMany
        exact related?_tidy_of_one hnames hn (htells node hn) (hmerges node hn) hsub hparent
          (Bool.eq_false_iff.mpr htoMany) ho hm
    · rw [NameMap.get?_eq_none_iff.mpr (by rwa [nodesGather_eq_map, List.map_map]), Option.none_or]
      refine related?_tidy_of_const ho (List.forall_mem_map.mpr fun row _ => ?_) hm
      rw [related?_loading, NameMap.get?_eq_none_iff.mpr (by rwa [map_fst_nodesRead]), Option.none_or]

theorem merges_of_tells (htells : node.Tells s all parent) : node.Merges s all := by
  induction htells with
  | @intro parent node pk keys single names below ih =>
    intro rows hsub r hr m hm
    have hshown : rows.map (node.shown s) =
        rows.map fun row => (instanceOf s node.target node.columns r).loading s node.columns
          (nodesRead s row node.children) := by
      refine List.map_congr_left fun row hrow => ?_
      rw [JoinNode.shown, hr row hrow]
    rw [hshown] at hm
    exact tidy_of_mergeOf_rows names below ih hsub hr (NameMap.ordered_ofPairs _) hm

/-- The instances that joined rows show, merged, are what they show together. -/
theorem merge_read {t : JoinTree} (hpk : (s.entity t.root).hasField (s.entity t.root).pk = true)
    (hselected : t.columns.any (·.field == (s.entity t.root).pk) = true)
    (hkeys : ∀ row ∈ rows, ∀ row' ∈ rows, (s.entity t.root).key (row .root) = (s.entity t.root).key (row' .root) →
      row .root = row' .root)
    (hnames : (t.children.map (·.name)).Nodup) (htells : ∀ node ∈ t.children, node.Tells s rows .root) :
    merge s (rows.map (t.read s)) = t.gather s rows := by
  have hmerged := @merge_map_rows s .root (fun _ => true) (fun r => (t.root, (s.entity t.root).key r)) (t.read s) rows
    (fun r => (instanceOf s t.root t.columns r).loading s t.columns
      (nodesGather s t.children (rows.filter fun row => row .root = r)))
    (fun row _ _ => Prod.ext rfl (pk_instanceOf hpk hselected _))
    (fun row hrow row' hrow' _ _ he => hkeys row hrow row' hrow' (Prod.mk.inj he).2) ?_
  · rwa [List.filter_eq_self.mpr fun _ _ => rfl, List.filter_eq_self.mpr fun _ _ => rfl] at hmerged
  · intro r _ _ m hm
    have hroot : ∀ row ∈ rows.filter (fun row => row .root = r), row .root = r := fun row hrow =>
      of_decide_eq_true (List.mem_filter.mp hrow).2
    have hread : (rows.filter fun row => row .root = r).map (t.read s) =
        (rows.filter fun row => row .root = r).map fun row =>
          (instanceOf s t.root t.columns r).loading s t.columns (nodesRead s row t.children) := by
      refine List.map_congr_left fun row hrow => ?_
      rw [JoinTree.read, hroot row hrow]
    rw [hread] at hm
    exact tidy_of_mergeOf_rows hnames htells (fun node hn => merges_of_tells (htells node hn))
      (fun row hrow => (List.mem_filter.mp hrow).1) hroot (NameMap.ordered_ofPairs _) hm

end RelQuery
