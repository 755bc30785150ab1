import RelQuery.Proofs.Rows.Read

/-!
# The rows of a statement

The joined rows that filters keep, in the order of the statement. There is only one such order, so that any statement
whose tuples show these rows, in whatever order they are found, is answered by the same rows.
-/

namespace RelQuery

open Sql

variable {sv : Server} {db : Database} {s : Schema} {p : Prepared}

def Prepared.keeps (p : Prepared) (sv : Server) (db : Database) (row : Joined) : Bool :=
  p.bound.filters.all fun f => f.keeps sv db row

/-- The joined rows that all filters keep. -/
def Prepared.keptRows (p : Prepared) (sv : Server) (db : Database) : List Joined :=
  (p.joinedRows sv db).filter (p.keeps sv db)

theorem fits_of_mem_keptRows (h : p.Named) {row : Joined} (hrow : row ∈ p.keptRows sv db) : p.RowFits db row :=
  fits_of_mem_joinedRows h (List.mem_filter.mp hrow).1

theorem truth_congr {row row' : Joined} (f : BoundFilter)
    (hsame : ∀ c ∈ f.conds, row.value c.path c.column = row'.value c.path c.column) :
    f.truth sv db row = f.truth sv db row' := by
  have hcond : ∀ c : BoundCond, row.value c.path c.column = row'.value c.path c.column →
      c.truth sv db row = c.truth sv db row' := by
    intro c hc
    unfold BoundCond.truth
    rw [hc]
  refine BoundFilter.rec
    (motive_1 := fun f => (∀ c ∈ f.conds, row.value c.path c.column = row'.value c.path c.column) →
      f.truth sv db row = f.truth sv db row')
    (motive_2 := fun fs => (∀ c ∈ BoundFilter.condsOf fs, row.value c.path c.column = row'.value c.path c.column) →
      BoundFilter.allTruth sv db row fs = BoundFilter.allTruth sv db row' fs ∧
        BoundFilter.anyTruth sv db row fs = BoundFilter.anyTruth sv db row' fs)
    ?_ ?_ ?_ ?_ ?_ ?_ f hsame
  · intro c hc
    exact hcond c (hc c (List.mem_singleton_self c))
  · intro items ih hitems
    exact (ih hitems).1
  · intro items ih hitems
    exact (ih hitems).2
  · intro item ih hitem
    rw [BoundFilter.truth, BoundFilter.truth, ih hitem]
  · exact fun _ => ⟨rfl, rfl⟩
  · intro f rest ihf ihrest hfs
    have hf := ihf fun c hc => hfs c (List.mem_append_left _ hc)
    obtain ⟨hall, hany⟩ := ihrest fun c hc => hfs c (List.mem_append_right _ hc)
    rw [BoundFilter.allTruth, BoundFilter.allTruth, BoundFilter.anyTruth, BoundFilter.anyTruth, hf, hall, hany]
    exact ⟨rfl, rfl⟩

/-- Filters on the root keep all joined rows of a root row or none. -/
theorem keeps_congr {f : BoundFilter} (hroot : f.isRootOnly = true) {row row' : Joined} (h : row .root = row' .root) :
    f.keeps sv db row = f.keeps sv db row' := by
  unfold BoundFilter.keeps
  rw [truth_congr f fun c hc => ?_]
  unfold Joined.value
  rw [Path.isRoot_iff.mp (List.all_eq_true.mp hroot c hc), h]

theorem all_eq_of_forall₂ {α β : Type} {R : α → β → Prop} {l : List α} {m : List β} (h : List.Forall₂ R l m)
    {f : α → Bool} {g : β → Bool} (hsame : ∀ a b, R a b → g b = f a) : m.all g = l.all f := by
  induction h with
  | nil => rfl
  | cons hab _ ih => rw [List.all_cons, List.all_cons, hsame _ _ hab, ih]

/-- The tuples of the joined root table that all predicates keep show the rows that all filters keep. -/
theorem map_rowOf_kept (h : p.Named) {js : List Join} (hjs : p.joins = .ok js) {predicates : List Predicate}
    (hp : p.predicates = .ok predicates) :
    ((joinAll sv db (tuplesOf sv db (some (.ofTable p.rootTable))) js).filter
        fun t => holdsIn sv db t (Expr.all? (predicates.map (·.expr)))).map (p.rowOf p.bound.resolved) =
      p.keptRows sv db := by
  rw [Prepared.keptRows, ← map_rowOf_rootTable h hjs, List.filter_map]
  congr 1
  refine List.filter_congr fun t _ => ?_
  rw [holdsIn_all?, List.all_map, Function.comp_apply, Prepared.keeps]
  exact all_eq_of_forall₂ (@keeps_predicates sv db p h _ hp) fun f pred hpred => hpred.2 t

/-- Rows in the order of the statement. -/
def Prepared.sortRows (p : Prepared) (sv : Server) (rows : List Joined) : List Joined :=
  rows.insertionSort fun a b =>
    (sv.compareKeys (p.rowSort.map (·.dir)) (a.sortKey p.rowSort) (b.sortKey p.rowSort)).isLE = true

theorem perm_sortRows (p : Prepared) (sv : Server) (rows : List Joined) : (p.sortRows sv rows).Perm rows :=
  rows.perm_insertionSort _

theorem mem_sortRows {rows : List Joined} {row : Joined} : row ∈ p.sortRows sv rows ↔ row ∈ rows :=
  (perm_sortRows p sv rows).mem_iff

theorem pairwise_sortRows (p : Prepared) (sv : Server) (rows : List Joined) :
    (p.sortRows sv rows).Pairwise fun a b =>
      (sv.compareKeys (p.rowSort.map (·.dir)) (a.sortKey p.rowSort) (b.sortKey p.rowSort)).isLE = true := by
  let le : Joined → Joined → Prop := fun a b =>
    (sv.compareKeys (p.rowSort.map (·.dir)) (a.sortKey p.rowSort) (b.sortKey p.rowSort)).isLE = true
  have htotal : Std.Total le := ⟨fun a b => Server.compareKeys_total _ _ _⟩
  have htrans : IsTrans Joined le := ⟨fun _ _ _ => Server.compareKeys_trans _⟩
  exact rows.pairwise_insertionSort le

/-- Lists of the same rows that are in order are the same. -/
theorem eq_sortRows (h : p.Named) (hdb : db.Keyed sv p.schema) {rows sorted : List Joined}
    (hfit : ∀ row ∈ rows, p.RowFits db row) (hperm : sorted.Perm rows)
    (hsorted : sorted.Pairwise fun a b =>
      (sv.compareKeys (p.rowSort.map (·.dir)) (a.sortKey p.rowSort) (b.sortKey p.rowSort)).isLE = true) :
    sorted = p.sortRows sv rows := by
  refine List.Perm.eq_of_pairwise (fun a b ha hb hab hba => ?_) hsorted (pairwise_sortRows p sv rows)
    (hperm.trans (perm_sortRows p sv rows).symm)
  have hb' := (perm_sortRows p sv rows).mem_iff.mp hb
  refine eq_of_sortKey h hdb (hfit a (hperm.mem_iff.mp ha)) (hfit b hb') ?_
  exact Std.OrientedCmp.isLE_antisymm hab hba

/-- Sorting keeps what is kept of rows in order. -/
theorem sortRows_filter (h : p.Named) (hdb : db.Keyed sv p.schema) {rows : List Joined}
    (hfit : ∀ row ∈ rows, p.RowFits db row) (keep : Joined → Bool) :
    p.sortRows sv (rows.filter keep) = (p.sortRows sv rows).filter keep :=
  (eq_sortRows h hdb (fun row hrow => hfit row (List.mem_filter.mp hrow).1) ((perm_sortRows p sv rows).filter keep)
    ((pairwise_sortRows p sv rows).filter keep)).symm

theorem isAggregate_columnItems {table : String} {columns : List SelectedColumn} :
    ∀ item ∈ columnItems table columns, item.expr.isAggregate = false :=
  List.forall_mem_map.mpr fun _ _ => rfl

theorem isAggregate_items (node : JoinNode) : ∀ item ∈ node.items, item.expr.isAggregate = false := by
  induction node using JoinNode.children_induction with
  | step node ih =>
    obtain ⟨_, _, _, _, table, _, _, columns, children⟩ := node
    rw [JoinNode.items, nodesItems_eq_flatMap]
    refine List.forall_mem_append.mpr ⟨isAggregate_columnItems, fun item hitem => ?_⟩
    obtain ⟨child, hchild, hitem⟩ := List.mem_flatMap.mp hitem
    exact ih child hchild item hitem

theorem isAggregate_selectList (tree : JoinTree) (table : String) :
    (tree.selectList table).any (·.expr.isAggregate) = false := by
  rw [JoinTree.selectList, nodesItems_eq_flatMap]
  refine List.any_eq_false.mpr fun item hitem => Bool.eq_false_iff.mp ?_
  rcases List.mem_append.mp hitem with hown | hbelow
  · exact isAggregate_columnItems item hown
  · obtain ⟨node, -, hitem⟩ := List.mem_flatMap.mp hbelow
    exact isAggregate_items node item hitem

/-- Rows that each hold a root instance are sliced into these instances. -/
theorem ofRows_map {α : Type} {m : Materializer} {tree : JoinTree} {l : List α} {row : α → Row} {found : α → Instance}
    (h : ∀ a ∈ l, m.ofRow tree (row a) = .ok (some (found a))) : m.ofRows tree (l.map row) = .ok (l.map found) := by
  have hrows : (l.map row).mapM (m.ofRow tree) = .ok (l.map fun a => some (found a)) := by
    rw [mapM_eq_ok, List.forall₂_map_left_iff, List.forall₂_map_right_iff]
    exact List.forall₂_same.mpr h
  have hfound : (l.map fun a => some (found a)).filterMap id = l.map found := by
    rw [List.filterMap_map]
    exact congrFun List.filterMap_eq_map l
  rw [Materializer.ofRows, hrows, Except.map, hfound]

/-- The query is answered by the cells of tuples that show these joined rows, one by one. -/
def Prepared.Shows (p : Prepared) (sv : Server) (db : Database) (q : Query) (tree : JoinTree) (rows : List Joined) : Prop :=
  ∃ tuples : List Tuple, tuples.map (p.rowOf p.bound.resolved) = rows ∧
    q.answer sv db = tuples.map fun t => cellsOfItems sv db [t] (tree.selectList p.rootTable)

/-- A statement whose tuples show the given rows, in whatever order, is answered by these rows in the order of the
statement. -/
theorem shows_answer (h : p.Named) (hdb : db.Keyed sv p.schema) {tree : JoinTree} {q : Query}
    (hselect : q.select = tree.selectList p.rootTable) (hgroup : q.groupBy = []) (horder : p.orderBy = .ok q.orderBy)
    {rows : List Joined} (hkept : ((q.kept sv db).map (p.rowOf p.bound.resolved)).Perm rows)
    (hfit : ∀ row ∈ rows, p.RowFits db row) :
    p.Shows sv db q tree (bounded q.limit q.offset (p.sortRows sv rows)) := by
  have hitems := sortsRows_orderBy h horder
  obtain ⟨sorted, hperm, hsorted, hanswer⟩ :=
    @answer_plain sv db q hgroup (by rw [hselect]; exact isAggregate_selectList tree p.rootTable)
  have hrows : sorted.map (p.rowOf p.bound.resolved) = p.sortRows sv rows := by
    refine eq_sortRows h hdb hfit ((hperm.map _).trans hkept) (List.pairwise_map.mpr (hsorted.imp fun {t u} hle => ?_))
    unfold Query.Ordered Query.dirs at hle
    rwa [orderKeys_rows h hitems, orderKeys_rows h hitems, dirs_eq_map hitems fun _ _ hc => hc.dir] at hle
  refine ⟨bounded q.limit q.offset sorted, ?_, ?_⟩
  · rw [map_bounded, hrows]
  · rw [hanswer, hselect]

/-- Slicing an answer gives what its joined rows show. -/
theorem ofRows_of_shows (h : p.Named) (hdb : db.Sound sv p.schema) {registry : AliasRegistry}
    (hfrom : PreparedFrom p.schema registry p.request p) {tree : JoinTree} (ht : p.tree = .ok tree)
    (hlabels : ((tree.selectList p.rootTable).map (·.label)).Nodup)
    (hpk : tree.columns.any (·.field == p.rootEntity.pk) = true) {q : Query} {rows : List Joined}
    (hshows : p.Shows sv db q tree rows) (hfit : ∀ row ∈ rows, p.RowFits db row) :
    (standardOf p.schema).ofRows tree ((q.answer sv db).map NameMap.ofPairs) = .ok (rows.map (tree.read p.schema)) := by
  obtain ⟨tuples, rfl, hanswer⟩ := hshows
  rw [hanswer, List.map_map, List.map_map]
  exact ofRows_map fun t ht' => ofRow_read h hdb hfrom ht hlabels hpk (hfit _ (List.mem_map_of_mem ht'))

/-- Where slicing an answer succeeds, it gives instances with the fields of the root rows that it shows. -/
theorem fields_of_shows (h : p.Named) (hdb : db.Keyed sv p.schema) {registry : AliasRegistry}
    (hfrom : PreparedFrom p.schema registry p.request p) {tree : JoinTree} (ht : p.tree = .ok tree)
    (hlabels : ((tree.selectList p.rootTable).map (·.label)).Nodup)
    (hpk : tree.columns.any (·.field == p.rootEntity.pk) = true) {q : Query} {rows : List Joined}
    (hshows : p.Shows sv db q tree rows) (hof : ∀ row ∈ rows, row .root ∈ db.of p.schema p.request.root)
    {found : List Instance}
    (hfound : (standardOf p.schema).ofRows tree ((q.answer sv db).map NameMap.ofPairs) = .ok found) :
    found.map (fun i => (i.entity, i.fields)) =
      rows.map fun row => (p.request.root, p.rootEntity.fieldsOf tree.columns (row .root)) := by
  obtain ⟨tuples, rfl, hanswer⟩ := hshows
  rw [hanswer, List.map_map] at hfound
  obtain ⟨sliced, hsliced, rfl⟩ := map_eq_ok.mp hfound
  have heach := List.forall₂_map_left_iff.mp (mapM_eq_ok.mp hsliced)
  have hkeyed : ∀ t ∈ tuples, p.rootEntity.key (p.rowOf p.bound.resolved t .root) ≠ .null := fun t ht =>
    hdb.keyed _ h.root _ (hof _ (List.mem_map_of_mem ht))
  clear hanswer hsliced hof hfound
  induction heach with
  | nil => rfl
  | @cons t o rest sliced hrow _ ih =>
    obtain ⟨hkey, hrest⟩ := List.forall_mem_cons.mp hkeyed
    obtain ⟨i, rfl, hentity, hfields⟩ := fields_of_ofRow h hfrom ht hlabels hpk hkey hrow
    rw [List.filterMap_cons, List.map_cons, List.map_cons, ← ih hrest]
    exact congrArg (· :: _) (Prod.ext hentity hfields)

end RelQuery
