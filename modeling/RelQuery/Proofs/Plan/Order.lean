import RelQuery.Proofs.Filter.Truth
import RelQuery.Proofs.Sql.Answer

/-!
# Orderings of joined rows

What statements sort by, told without aliases: columns at the ends of paths, the primary keys of all joined entities
among them. The keys that a statement computes for a tuple are those of the joined row that it shows, and rows that
they do not tell apart are the same row.
-/

namespace RelQuery

open Sql

variable {sv : Server} {db : Database} {p : Prepared}

/-! ### Columns to sort by -/

/-- A column that rows are sorted by: the path to its entity, its name in the table, and the direction. -/
structure SortColumn where
  path : Path
  column : String
  dir : SortDir

/-- Sorts by a column last, unless the rows are sorted by it already. -/
def addSortColumn (columns : List SortColumn) (path : Path) (column : String) : List SortColumn :=
  if columns.any fun c => c.path == path && c.column == column then columns else columns ++ [⟨path, column, .asc⟩]

namespace Prepared

/-- As asked for, then by the primary key of the root. -/
def rootSort (p : Prepared) : List SortColumn :=
  addSortColumn (p.bound.orders.map fun o => ⟨o.path, o.column, o.dir⟩) .root p.rootEntity.pkColumn.dbName

/-- As asked for, then by the primary keys of the root and of all joined entities. -/
def rowSort (p : Prepared) : List SortColumn :=
  p.bound.resolved.foldl
    (fun columns r => addSortColumn columns r.path (p.schema.entity r.target).pkColumn.dbName) p.rootSort

end Prepared

def Joined.sortKey (row : Joined) (columns : List SortColumn) : List Value :=
  columns.map fun c => row.value c.path c.column

theorem exists_mem_addSortColumn (columns : List SortColumn) (path : Path) (column : String) :
    ∃ c ∈ addSortColumn columns path column, c.path = path ∧ c.column = column := by
  unfold addSortColumn
  split
  · rename_i hany
    obtain ⟨c, hc, hsame⟩ := List.any_eq_true.mp hany
    rw [Bool.and_eq_true, beq_iff_eq, beq_iff_eq] at hsame
    exact ⟨c, hc, hsame⟩
  · exact ⟨_, List.mem_append_right _ (List.mem_singleton_self _), rfl, rfl⟩

theorem prefix_addSortColumn (columns : List SortColumn) (path : Path) (column : String) :
    columns <+: addSortColumn columns path column := by
  unfold addSortColumn
  split
  · exact List.prefix_refl _
  · exact List.prefix_append _ _

theorem prefix_foldl_addSortColumn (s : Schema) (resolved : List ResolvedPath) (columns : List SortColumn) :
    columns <+: resolved.foldl
      (fun columns r => addSortColumn columns r.path (s.entity r.target).pkColumn.dbName) columns := by
  induction resolved generalizing columns with
  | nil => exact List.prefix_refl _
  | cons r rest ih => exact (prefix_addSortColumn _ _ _).trans (ih _)

theorem rootSort_prefix_rowSort (p : Prepared) : p.rootSort <+: p.rowSort := prefix_foldl_addSortColumn _ _ _

theorem exists_root_mem_rootSort (p : Prepared) :
    ∃ c ∈ p.rootSort, c.path = .root ∧ c.column = p.rootEntity.pkColumn.dbName := exists_mem_addSortColumn _ _ _

/-- Pages are sorted by what they are ordered by, and by the root. -/
theorem cases_of_mem_rootSort {c : SortColumn} (hc : c ∈ p.rootSort) :
    c.path = .root ∨ ∃ o ∈ p.bound.orders, c = ⟨o.path, o.column, o.dir⟩ := by
  have hasked : ∀ c ∈ p.bound.orders.map fun o => (⟨o.path, o.column, o.dir⟩ : SortColumn),
      c.path = .root ∨ ∃ o ∈ p.bound.orders, c = ⟨o.path, o.column, o.dir⟩ :=
    List.forall_mem_map.mpr fun o ho => .inr ⟨o, ho, rfl⟩
  unfold Prepared.rootSort addSortColumn at hc
  split at hc
  · exact hasked c hc
  · exact List.forall_mem_append.mpr ⟨hasked, List.forall_mem_singleton.mpr (.inl rfl)⟩ c hc

theorem path_of_mem_rootSort (h : ∀ o ∈ p.bound.orders, o.path.isRoot = true) {c : SortColumn} (hc : c ∈ p.rootSort) :
    c.path.isRoot = true := by
  rcases cases_of_mem_rootSort hc with hroot | ⟨o, ho, rfl⟩
  · exact Path.isRoot_iff.mpr hroot
  · exact h o ho

theorem exists_mem_rowSort {r : ResolvedPath} (hr : r ∈ p.bound.resolved) :
    ∃ c ∈ p.rowSort, c.path = r.path ∧ c.column = (p.schema.entity r.target).pkColumn.dbName := by
  unfold Prepared.rowSort
  generalize p.rootSort = columns
  revert hr
  generalize p.bound.resolved = resolved
  intro hr
  induction resolved generalizing columns with
  | nil => cases hr
  | cons t rest ih =>
    rw [List.foldl_cons]
    rcases List.mem_cons.mp hr with rfl | hrest
    · obtain ⟨c, hc, hsame⟩ := exists_mem_addSortColumn columns r.path (p.schema.entity r.target).pkColumn.dbName
      exact ⟨c, (prefix_foldl_addSortColumn p.schema rest _).subset hc, hsame⟩
    · exact ih _ hrest

/-! ### From columns to expressions -/

/-- A joined path, or the root, with a column of its entity. -/
structure Prepared.HasPlace (p : Prepared) (path : Path) (column : String) : Prop where
  joined : path ≠ .root → ∃ r ∈ p.bound.resolved, r.path = path
  column : p.schema.HasColumnAt p.request.root path column

theorem Prepared.Named.place_root (h : p.Named) : p.HasPlace .root p.rootEntity.pkColumn.dbName :=
  ⟨fun hne => absurd rfl hne, [], p.request.root, rfl, h.schema.pk_mem h.root⟩

theorem Prepared.Named.place_at (h : p.Named) {r : ResolvedPath} (hr : r ∈ p.bound.resolved) {column : String}
    (hc : column ∈ (p.schema.entity r.target).columns.map (·.dbName)) : p.HasPlace r.path column :=
  ⟨fun _ => ⟨r, hr, rfl⟩, r.hops, r.target, h.bound.joined.resolves r hr, hc⟩

theorem Prepared.Named.lt_target (h : p.Named) {r : ResolvedPath} (hr : r ∈ p.bound.resolved) :
    r.target.index < p.schema.entities.length := by
  obtain ⟨a, rel, hop⟩ := h.exists_hop hr
  exact hop.target ▸ h.schema.targets rel hop.mem

theorem Prepared.Named.place_resolved (h : p.Named) {r : ResolvedPath} (hr : r ∈ p.bound.resolved) :
    p.HasPlace r.path (p.schema.entity r.target).pkColumn.dbName :=
  h.place_at hr (h.schema.pk_mem (h.lt_target hr))

theorem Prepared.Named.place_order (h : p.Named) {o : BoundOrder} (ho : o ∈ p.bound.orders) :
    p.HasPlace o.path o.column := by
  obtain ⟨spec, -, hspec⟩ := exists_of_mem_forall₂ (mapM_eq_ok.mp h.bound.orders) ho
  exact ⟨h.bound.joined_of_order ho, hasColumnAt_of_bindOrder hspec⟩

theorem Prepared.Named.qualifier_injective (h : p.Named) {path path' : Path}
    (hpath : path ≠ .root → ∃ r ∈ p.bound.resolved, r.path = path)
    (hpath' : path' ≠ .root → ∃ r ∈ p.bound.resolved, r.path = path') {table : String}
    (hq : p.aliases.qualifier path p.rootTable = .ok table) (hq' : p.aliases.qualifier path' p.rootTable = .ok table) :
    path = path' := by
  have hnodup := h.nodup_tableNames
  unfold Prepared.tableNames at hnodup
  rw [List.map_cons, List.map_flatMap, List.nodup_cons] at hnodup
  obtain ⟨hroot, hnodup⟩ := hnodup
  have hnamed : ∀ r ∈ p.bound.resolved, p.aliases.qualifier r.path p.rootTable = .ok table →
      table ∈ (r.tableNames p.schema p.aliases).map (·.1) := by
    intro r hr hr'
    obtain ⟨a, rel, hop⟩ := h.exists_hop hr
    rw [qualifier_of_ne_root (h.bound.joined.ne_root r hr) hop.aliases] at hr'
    cases hr'
    exact List.mem_map_of_mem hop.target_mem
  by_cases hr : path = .root <;> by_cases hr' : path' = .root
  · rw [hr, hr']
  · subst hr
    cases hq
    obtain ⟨r, hmem, rfl⟩ := hpath' hr'
    exact absurd (List.mem_flatMap.mpr ⟨r, hmem, hnamed r hmem hq'⟩) hroot
  · subst hr'
    cases hq'
    obtain ⟨r, hmem, rfl⟩ := hpath hr
    exact absurd (List.mem_flatMap.mpr ⟨r, hmem, hnamed r hmem hq⟩) hroot
  · obtain ⟨r, hmem, rfl⟩ := hpath hr
    obtain ⟨t, hmem', rfl⟩ := hpath' hr'
    rw [eq_of_mem_flatMap hnodup hmem hmem' (hnamed r hmem hq) (hnamed t hmem' hq')]

/-- An item of `ORDER BY` that sorts rows by a column. -/
structure SortColumn.SortsRows (p : Prepared) (c : SortColumn) (item : OrderItem) : Prop where
  place : p.HasPlace c.path c.column
  dir : item.dir = some c.dir
  expr : ∃ table, p.aliases.qualifier c.path p.rootTable = .ok table ∧ item.expr = .col table c.column

theorem SortColumn.SortsRows.isColumn (h : p.Named) {c : SortColumn} {item : OrderItem} (hc : c.SortsRows p item)
    {path : Path} {column table : String} (hplace : p.HasPlace path column)
    (htable : p.aliases.qualifier path p.rootTable = .ok table) :
    item.expr.isColumn table column = (c.path == path && c.column == column) := by
  obtain ⟨table', htable', he⟩ := hc.expr
  have hpath : (table' == table) = (c.path == path) := by
    rw [Bool.eq_iff_iff, beq_iff_eq, beq_iff_eq]
    constructor
    · rintro rfl
      exact h.qualifier_injective hc.place.joined hplace.joined htable' htable
    · intro he
      rw [he] at htable'
      exact Except.ok.inj (htable'.symm.trans htable)
  rw [he, ← hpath]
  rfl

theorem any_isColumn {columns : List SortColumn} {items : List OrderItem} {R : SortColumn → OrderItem → Prop}
    (hitems : List.Forall₂ R columns items) {table column : String} {path : Path}
    (hsame : ∀ c item, R c item → item.expr.isColumn table column = (c.path == path && c.column == column)) :
    (items.any fun item => item.expr.isColumn table column) =
      columns.any fun c => c.path == path && c.column == column := by
  induction hitems with
  | nil => rfl
  | cons hc _ ih => rw [List.any_cons, List.any_cons, hsame _ _ hc, ih]

/-- A tie break is a column to sort by. -/
theorem forall₂_addTieBreak {columns : List SortColumn} {items : List OrderItem} {R : SortColumn → OrderItem → Prop}
    (hitems : List.Forall₂ R columns items) {table column : String} {path : Path}
    (hsame : ∀ c item, R c item → item.expr.isColumn table column = (c.path == path && c.column == column))
    (hnew : R ⟨path, column, .asc⟩ ⟨.col table column, some .asc⟩) :
    List.Forall₂ R (addSortColumn columns path column) (addTieBreak items table column) := by
  unfold addTieBreak addSortColumn
  rw [any_isColumn hitems hsame]
  split
  · exact hitems
  · exact List.rel_append hitems (.cons hnew .nil)

theorem sortsRows_foldlM (h : p.Named) {resolved : List ResolvedPath} (hsub : resolved ⊆ p.bound.resolved)
    {columns : List SortColumn} {before items : List OrderItem}
    (hbefore : List.Forall₂ (SortColumn.SortsRows p) columns before)
    (hi : resolved.foldlM
      (fun items r => do
        let table ← p.aliases.qualifier r.path p.rootTable
        return addTieBreak items table (p.schema.entity r.target).pkColumn.dbName) before = .ok items) :
    List.Forall₂ (SortColumn.SortsRows p)
      (resolved.foldl (fun columns r => addSortColumn columns r.path (p.schema.entity r.target).pkColumn.dbName) columns)
      items := by
  induction resolved generalizing columns before with
  | nil =>
    cases hi
    exact hbefore
  | cons r rest ih =>
    have hplace := h.place_resolved (hsub (List.mem_cons_self ..))
    rw [List.foldlM_cons] at hi
    obtain ⟨after, hafter, hi⟩ := bind_eq_ok.mp hi
    obtain ⟨table, htable, hafter⟩ := bind_eq_ok.mp hafter
    cases hafter
    refine ih (fun t ht => hsub (List.mem_cons_of_mem _ ht)) ?_ hi
    exact forall₂_addTieBreak hbefore (fun c item hc => hc.isColumn h hplace htable) ⟨hplace, rfl, table, htable, rfl⟩

/-- Statements sort by the columns of `rowSort`. -/
theorem sortsRows_orderBy (h : p.Named) {items : List OrderItem} (hi : p.orderBy = .ok items) :
    List.Forall₂ (SortColumn.SortsRows p) p.rowSort items := by
  unfold Prepared.orderBy at hi
  obtain ⟨asked, hasked, hi⟩ := bind_eq_ok.mp hi
  have hplaced := (List.forall₂_and_left _ _).mpr ⟨fun o ho => h.place_order ho, mapM_eq_ok.mp hasked⟩
  have hasked' : List.Forall₂ (SortColumn.SortsRows p) (p.bound.orders.map fun o => ⟨o.path, o.column, o.dir⟩) asked := by
    refine List.forall₂_map_left_iff.mpr (hplaced.imp fun o item ⟨hplace, hitem⟩ => ?_)
    obtain ⟨e, he, rfl⟩ := map_eq_ok.mp hitem
    obtain ⟨table, htable, rfl⟩ := map_eq_ok.mp he
    exact ⟨hplace, rfl, table, htable, rfl⟩
  have hroot : List.Forall₂ (SortColumn.SortsRows p) p.rootSort (p.addRootTieBreak asked) :=
    forall₂_addTieBreak hasked' (fun c item hc => hc.isColumn h h.place_root rfl)
      ⟨h.place_root, rfl, p.rootTable, rfl, rfl⟩
  exact sortsRows_foldlM h (List.Subset.refl _) hroot hi

/-- An item of `ORDER BY` that sorts root rows by a column, or by the first value of a joined column in the direction. -/
structure SortColumn.SortsRoots (p : Prepared) (c : SortColumn) (item : OrderItem) : Prop where
  place : p.HasPlace c.path c.column
  dir : item.dir = some c.dir
  expr : ∃ table, p.aliases.qualifier c.path p.rootTable = .ok table ∧ item.expr =
    if c.path.isRoot then .col table c.column
    else
      match c.dir with
      | .asc => (Expr.col table c.column).min
      | .desc => (Expr.col table c.column).max

/-- Pages sort by the columns of `rootSort`. -/
theorem sortsRoots_pageOrder (h : p.Named) {items : List OrderItem} (hi : p.pageOrder = .ok items) :
    List.Forall₂ (SortColumn.SortsRoots p) p.rootSort items := by
  unfold Prepared.pageOrder at hi
  obtain ⟨asked, hasked, hi⟩ := bind_eq_ok.mp hi
  cases hi
  have hplaced := (List.forall₂_and_left _ _).mpr ⟨fun o ho => h.place_order ho, mapM_eq_ok.mp hasked⟩
  have hasked' : List.Forall₂ (SortColumn.SortsRoots p) (p.bound.orders.map fun o => ⟨o.path, o.column, o.dir⟩) asked := by
    refine List.forall₂_map_left_iff.mpr (hplaced.imp fun o item ⟨hplace, hitem⟩ => ?_)
    obtain ⟨e, he, rfl⟩ := map_eq_ok.mp hitem
    obtain ⟨table, htable, rfl⟩ := map_eq_ok.mp he
    refine ⟨hplace, ?_, table, htable, ?_⟩ <;> unfold BoundOrder.dir <;> dsimp only <;> split <;> (try split) <;>
      simp_all
  refine forall₂_addTieBreak hasked' (fun c item hc => ?_) ⟨h.place_root, rfl, p.rootTable, rfl, rfl⟩
  -- only columns of the root are items as they are
  obtain ⟨table, htable, he⟩ := hc.expr
  rw [he]
  by_cases hroot : c.path = .root
  · rw [hroot] at htable ⊢
    cases htable
    rw [if_pos (Path.isRoot_iff.mpr rfl), Expr.col, Expr.isColumn, beq_self_eq_true, beq_self_eq_true]
  · rw [if_neg fun hr => hroot (Path.isRoot_iff.mp hr), beq_eq_false_iff_ne.mpr hroot, Bool.false_and]
    split <;> rfl

/-! ### Keys -/

theorem orderKeys_eq_map (group : List Tuple) (items : List OrderItem) :
    orderKeys sv db group items = items.map fun item => item.expr.value sv db group := by
  induction items with
  | nil => rfl
  | cons item rest ih =>
    cases item
    rw [orderKeys, ih]
    rfl

theorem map_eq_of_forall₂ {α β γ : Type} {R : α → β → Prop} {l : List α} {m : List β} (h : List.Forall₂ R l m)
    {f : α → γ} {g : β → γ} (hsame : ∀ a b, R a b → g b = f a) : m.map g = l.map f := by
  induction h with
  | nil => rfl
  | cons hab _ ih => rw [List.map_cons, List.map_cons, hsame _ _ hab, ih]

theorem Prepared.HasPlace.column_eq {path : Path} {column : String} (hplace : p.HasPlace path column) (h : p.Named)
    {table : String} (htable : p.aliases.qualifier path p.rootTable = .ok table) (t : Tuple) :
    t.column (some table) column = (p.rowOf p.bound.resolved t).value path column :=
  column_qualified h (List.Subset.refl _) h.bound.joined.nodup hplace.joined hplace.column htable t

/-- Statements sort tuples by the keys of the rows that they show. -/
theorem orderKeys_rows (h : p.Named) {columns : List SortColumn} {items : List OrderItem}
    (hitems : List.Forall₂ (SortColumn.SortsRows p) columns items) (t : Tuple) :
    orderKeys sv db [t] items = (p.rowOf p.bound.resolved t).sortKey columns := by
  rw [orderKeys_eq_map]
  refine map_eq_of_forall₂ hitems fun c item hc => ?_
  obtain ⟨table, htable, he⟩ := hc.expr
  rw [he, ← hc.place.column_eq h htable t]
  rfl

theorem dirs_eq_map {columns : List SortColumn} {items : List OrderItem} {R : SortColumn → OrderItem → Prop}
    (hitems : List.Forall₂ R columns items) (hdir : ∀ c item, R c item → item.dir = some c.dir) :
    (items.map fun item => item.dir.getD .asc) = columns.map (·.dir) := by
  refine map_eq_of_forall₂ hitems fun c item hc => ?_
  rw [hdir c item hc, Option.getD_some]

/-- What a page sorts a root row by: its own value, or the first of the values that its joined rows have. -/
def SortColumn.rootValue (sv : Server) (c : SortColumn) (root : Record) (rows : List Joined) : Value :=
  if c.path.isRoot then root.at_ c.column
  else sv.extreme c.dir ((rows.map fun row => row.value c.path c.column).filter (!·.isNull))

def Prepared.rootKeyOf (p : Prepared) (sv : Server) (root : Record) (rows : List Joined) : List Value :=
  p.rootSort.map fun c => c.rootValue sv root rows

theorem value_aggregate (group : List Tuple) (table column : String) (dir : SortDir) :
    (match dir with
      | .asc => (Expr.col table column).min
      | .desc => (Expr.col table column).max).value sv db group =
      sv.extreme dir ((group.map fun t => t.column (some table) column).filter (!·.isNull)) := by
  have hargs : (group.map fun t => valuesOf sv db [t] [.col table column]).map (·.headD .null) =
      group.map fun t => t.column (some table) column := by
    rw [List.map_map]
    rfl
  cases dir with
  | asc =>
    dsimp only [Expr.min]
    rw [Expr.value, Server.call, hargs]
  | desc =>
    dsimp only [Expr.max]
    rw [Expr.value, Server.call, hargs]

/-- Pages sort groups of tuples by the keys of their root rows. -/
theorem orderKeys_roots (h : p.Named) {items : List OrderItem}
    (hitems : List.Forall₂ (SortColumn.SortsRoots p) p.rootSort items) (t : Tuple) (more : List Tuple) :
    orderKeys sv db (t :: more) items =
      p.rootKeyOf sv (p.rowOf p.bound.resolved t .root) ((t :: more).map (p.rowOf p.bound.resolved)) := by
  rw [orderKeys_eq_map, Prepared.rootKeyOf]
  refine map_eq_of_forall₂ hitems fun c item hc => ?_
  obtain ⟨table, htable, he⟩ := hc.expr
  rw [he, SortColumn.rootValue]
  by_cases hroot : c.path = .root
  · have hvalue := hc.place.column_eq h htable t
    rw [if_pos (Path.isRoot_iff.mpr hroot), if_pos (Path.isRoot_iff.mpr hroot)]
    rw [hroot] at hvalue
    exact hvalue
  · have hvalues : ((t :: more).map (p.rowOf p.bound.resolved)).map (fun row => row.value c.path c.column) =
        (t :: more).map fun t => t.column (some table) c.column := by
      rw [List.map_map]
      exact List.map_congr_left fun u _ => (hc.place.column_eq h htable u).symm
    rw [if_neg fun hr => hroot (Path.isRoot_iff.mp hr), if_neg fun hr => hroot (Path.isRoot_iff.mp hr), hvalues]
    exact value_aggregate (t :: more) table c.column c.dir

/-- Lists of values that compare as equal do so value by value. -/
theorem rank_of_compareKeys {columns : List SortColumn} {f g : SortColumn → Value}
    (h : sv.compareKeys (columns.map (·.dir)) (columns.map f) (columns.map g) = .eq) :
    ∀ c ∈ columns, sv.rank c.dir (f c) (g c) = .eq := by
  induction columns with
  | nil => simp
  | cons c rest ih =>
    rw [List.map_cons, List.map_cons, List.map_cons, Server.compareKeys, Ordering.then_eq_eq] at h
    exact List.forall_mem_cons.mpr ⟨h.1, ih h.2⟩

theorem compareKeys_of_rank {columns : List SortColumn} {f g : SortColumn → Value}
    (h : ∀ c ∈ columns, sv.rank c.dir (f c) (g c) = .eq) :
    sv.compareKeys (columns.map (·.dir)) (columns.map f) (columns.map g) = .eq := by
  induction columns with
  | nil => rfl
  | cons c rest ih =>
    obtain ⟨hc, hrest⟩ := List.forall_mem_cons.mp h
    rw [List.map_cons, List.map_cons, List.map_cons, Server.compareKeys, Ordering.then_eq_eq]
    exact ⟨hc, ih hrest⟩

/-- Lists in order are in order by the first of their values. -/
theorem compareKeys_isLE_of_append {columns more : List SortColumn} {f g : SortColumn → Value}
    (h : (sv.compareKeys ((columns ++ more).map (·.dir)) ((columns ++ more).map f) ((columns ++ more).map g)).isLE = true) :
    (sv.compareKeys (columns.map (·.dir)) (columns.map f) (columns.map g)).isLE = true := by
  induction columns with
  | nil => rfl
  | cons c rest ih =>
    rw [List.cons_append, List.map_cons, List.map_cons, List.map_cons, Server.compareKeys,
      Ordering.isLE_then_iff_and] at h
    rw [List.map_cons, List.map_cons, List.map_cons, Server.compareKeys, Ordering.isLE_then_iff_and]
    exact ⟨h.1, h.2.imp id ih⟩

/-- A row found along a relation is one of the entity or all nulls. -/
theorem mem_linked {s : Schema} {id : EntityId} {value : Value} {column : String} {r : Record}
    (h : r ∈ db.linked sv s id value column) : r ∈ db.of s id ∨ r = (s.entity id).record [] := by
  unfold Database.linked Entity.orNulls at h
  split at h
  · exact .inr (List.mem_singleton.mp h)
  · exact .inl (List.mem_filter.mp h).1

theorem mem_follow {s : Schema} {rel : Relation} {from_ r : Record} (h : r ∈ rel.follow sv db s from_) :
    r ∈ db.of s rel.target ∨ r = (s.entity rel.target).record [] := by
  unfold Relation.follow at h
  dsimp only at h
  split at h
  · exact mem_linked h
  · exact mem_linked h
  · obtain ⟨m, -, h⟩ := List.mem_flatMap.mp h
    exact mem_linked h

theorem exists_follow_of_mem_joinPaths {s : Schema} {paths : List ResolvedPath} (hnodup : (paths.map (·.path)).Nodup)
    {row row' : Joined} (h : row' ∈ joinPaths sv db s paths row) {r : ResolvedPath} (hr : r ∈ paths) :
    ∃ before, row' r.path ∈ (r.relation s).follow sv db s before := by
  induction paths generalizing row with
  | nil => cases hr
  | cons t rest ih =>
    rw [List.map_cons, List.nodup_cons] at hnodup
    obtain ⟨found, hfound, hrow⟩ := List.mem_flatMap.mp h
    rcases List.mem_cons.mp hr with rfl | hrest
    · refine ⟨row r.parent, ?_⟩
      rw [joinPaths_of_not_mem hrow hnodup.1, Function.update_self]
      exact hfound
    · exact ih hnodup.2 hrow hrest

/-- What a joined row is made of: a row of the root entity, and at each joined path one of the entity there or nulls. -/
structure Prepared.RowFits (p : Prepared) (db : Database) (row : Joined) : Prop where
  root : row .root ∈ db.of p.schema p.request.root
  joined : ∀ r ∈ p.bound.resolved, row r.path ∈ db.of p.schema r.target ∨ row r.path = (p.schema.entity r.target).record []
  rest : ∀ path, path ≠ .root → path ∉ p.bound.resolved.map (·.path) → row path = []

theorem fits_of_mem_joinedRows (h : p.Named) {row : Joined} (hrow : row ∈ p.joinedRows sv db) : p.RowFits db row := by
  obtain ⟨root, hroot, hrow⟩ := List.mem_flatMap.mp hrow
  have hnot : Path.root ∉ p.bound.resolved.map (·.path) := by
    intro hmem
    obtain ⟨r, hr, he⟩ := List.mem_map.mp hmem
    exact h.bound.joined.ne_root r hr he
  refine ⟨?_, fun r hr => ?_, fun path hne hpath => ?_⟩
  · rw [joinPaths_of_not_mem hrow hnot]
    exact hroot
  · obtain ⟨before, hmem⟩ := exists_follow_of_mem_joinPaths h.bound.joined.nodup hrow hr
    obtain ⟨a, rel, hop⟩ := h.exists_hop hr
    have hfollow := mem_follow hmem
    rwa [show r.relation p.schema = rel from hop.relation, ← hop.target] at hfollow
  · rw [joinPaths_of_not_mem hrow hpath]
    exact if_neg hne

theorem eq_of_key {s : Schema} (hdb : db.Keyed sv s) {id : EntityId} (hid : id.index < s.entities.length) {r t : Record}
    (hr : r ∈ db.of s id) (ht : t ∈ db.of s id) (hkey : sv.compare ((s.entity id).key r) ((s.entity id).key t) = .eq) :
    r = t := by
  have : Std.Symm fun r t : Record => sv.compare ((s.entity id).key r) ((s.entity id).key t) ≠ .eq :=
    ⟨fun r t hne he => hne (Std.OrientedCmp.eq_symm he)⟩
  by_contra hne
  exact (List.pairwise_map.mp (hdb.unique id hid)).forall hr ht hne hkey

theorem eq_of_key_eq {s : Schema} (hdb : db.Keyed sv s) {id : EntityId} (hid : id.index < s.entities.length)
    {r t : Record} (hr : r ∈ db.of s id) (ht : t ∈ db.of s id) (hkey : (s.entity id).key r = (s.entity id).key t) :
    r = t := by
  refine eq_of_key hdb hid hr ht ?_
  rw [hkey]
  exact Std.ReflCmp.compare_self

theorem key_nulls {s : Schema} (hs : s.WellFormed) {id : EntityId} (hid : id.index < s.entities.length) :
    (s.entity id).key ((s.entity id).record []) = .null := by
  rw [Entity.key, Entity.record_at (hs.pk_mem hid)]
  rfl

/-- Rows of an entity, or of nulls, whose primary keys rank the same are the same. -/
theorem eq_of_rank {s : Schema} (hs : s.WellFormed) (hdb : db.Keyed sv s) {id : EntityId}
    (hid : id.index < s.entities.length) {dir : SortDir} {r t : Record}
    (hr : r ∈ db.of s id ∨ r = (s.entity id).record []) (ht : t ∈ db.of s id ∨ t = (s.entity id).record [])
    (hrank : sv.rank dir ((s.entity id).key r) ((s.entity id).key t) = .eq) : r = t := by
  have hnull := key_nulls hs hid
  have hmem : ∀ u ∈ db.of s id, ((s.entity id).key u).isNull = false := fun u hu =>
    Bool.eq_false_iff.mpr fun h => hdb.keyed id hid u hu (Value.isNull_eq_true.mp h)
  have hone : ∀ u ∈ db.of s id, sv.rank dir ((s.entity id).key u) .null ≠ .eq := by
    intro u hu
    unfold Server.rank
    rw [hmem u hu]
    cases sv.nullsFirst dir <;> simp [Value.isNull]
  rcases hr with hr | rfl <;> rcases ht with ht | rfl
  · refine eq_of_key hdb hid hr ht ?_
    unfold Server.rank at hrank
    rw [hmem r hr, hmem t ht] at hrank
    cases dir with
    | asc => exact hrank
    | desc => exact Std.OrientedCmp.eq_symm hrank
  · rw [hnull] at hrank
    exact absurd hrank (hone r hr)
  · rw [hnull] at hrank
    exact absurd (Std.OrientedCmp.eq_symm hrank) (hone t ht)
  · rfl

theorem eq_of_sortKey (h : p.Named) (hdb : db.Keyed sv p.schema) {row row' : Joined} (hrow : p.RowFits db row)
    (hrow' : p.RowFits db row')
    (hkeys : sv.compareKeys (p.rowSort.map (·.dir)) (row.sortKey p.rowSort) (row'.sortKey p.rowSort) = .eq) :
    row = row' := by
  have hrank := rank_of_compareKeys hkeys
  funext path
  by_cases hroot : path = .root
  · subst hroot
    obtain ⟨c, hc, hpath, hcolumn⟩ := exists_root_mem_rootSort p
    have hc' := hrank c ((rootSort_prefix_rowSort p).subset hc)
    rw [hpath, hcolumn] at hc'
    exact eq_of_rank h.schema hdb h.root (.inl hrow.root) (.inl hrow'.root) hc'
  · by_cases hjoined : path ∈ p.bound.resolved.map (·.path)
    · obtain ⟨r, hr, rfl⟩ := List.mem_map.mp hjoined
      obtain ⟨c, hc, hpath, hcolumn⟩ := exists_mem_rowSort hr
      have hc' := hrank c hc
      rw [hpath, hcolumn] at hc'
      exact eq_of_rank h.schema hdb (h.lt_target hr) (hrow.joined r hr) (hrow'.joined r hr) hc'
    · rw [hrow.rest path hroot hjoined, hrow'.rest path hroot hjoined]

end RelQuery
