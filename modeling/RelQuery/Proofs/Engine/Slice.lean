import RelQuery.Proofs.Engine.Page
import RelQuery.QuerySet

/-!
# Pages as slices

Statements sort joined rows, and their root rows come in the order of their first joined rows. Pages sort root rows, by
the first value of each ordering for itself. Where these two orders of root rows are one, a page is a slice of what the
request has without bounds. They are one if every root row has a joined row that is first by all orderings at once.
-/

namespace RelQuery

open Sql

variable {sv : Server} {db : Database} {s : Schema} {p : Prepared}

/-! ### Joined rows that lead -/

/-- A row that comes first of some rows by each of the columns, and has no null where another of them has a value. -/
structure Leads (sv : Server) (columns : List SortColumn) (rows : List Joined) (row : Joined) : Prop where
  first : ∀ c ∈ columns, ∀ other ∈ rows,
    (sv.rank c.dir (row.value c.path c.column) (other.value c.path c.column)).isLE = true
  null : ∀ c ∈ columns, row.value c.path c.column = .null → ∀ other ∈ rows, other.value c.path c.column = .null

instance (sv : Server) (columns : List SortColumn) (rows : List Joined) (row : Joined) :
    Decidable (Leads sv columns rows row) :=
  decidable_of_iff (_ ∧ _) ⟨fun h => ⟨h.1, h.2⟩, fun h => ⟨h.first, h.null⟩⟩

/-- Every matching root row has a joined row that leads the others by all that pages sort by. -/
def Prepared.Aligned (p : Prepared) (sv : Server) (db : Database) : Prop :=
  ∀ root ∈ p.matching sv db, ∃ row ∈ p.rowsAt sv db root, Leads sv p.rootSort (p.rowsAt sv db root) row

instance (p : Prepared) (sv : Server) (db : Database) : Decidable (p.Aligned sv db) :=
  inferInstanceAs (Decidable (∀ root ∈ p.matching sv db, ∃ row ∈ p.rowsAt sv db root,
    Leads sv p.rootSort (p.rowsAt sv db root) row))

theorem root_of_mem_rowsAt {root : Record} {row : Joined} (h : row ∈ p.rowsAt sv db root) : row .root = root :=
  of_decide_eq_true (List.mem_filter.mp h).2

theorem exists_mem_rowsAt {root : Record} (h : root ∈ p.matching sv db) : ∃ row, row ∈ p.rowsAt sv db root := by
  obtain ⟨row, hrow, hkeeps, hroot⟩ := mem_matching.mp h
  exact ⟨row, List.mem_filter.mpr ⟨List.mem_filter.mpr ⟨hrow, hkeeps⟩, decide_eq_true hroot⟩⟩

/-- The least value that is no null is the value of a leading row. -/
theorem rank_extreme_of_leads {columns : List SortColumn} {rows : List Joined} {row : Joined}
    (h : Leads sv columns rows row) (hrow : row ∈ rows) {c : SortColumn} (hc : c ∈ columns) :
    sv.rank c.dir (sv.extreme c.dir ((rows.map fun r => r.value c.path c.column).filter (!·.isNull)))
      (row.value c.path c.column) = .eq := by
  cases hnull : (row.value c.path c.column).isNull with
  | true =>
    have hvalue := Value.isNull_eq_true.mp hnull
    have hnone : ((rows.map fun r => r.value c.path c.column).filter (!·.isNull)) = [] := by
      refine List.filter_eq_nil_iff.mpr (List.forall_mem_map.mpr fun other hother => ?_)
      rw [h.null c hc hvalue other hother]
      exact Bool.false_ne_true
    rw [hnone, hvalue]
    exact Std.ReflCmp.compare_self
  | false =>
    have hvalue : row.value c.path c.column ∈ (rows.map fun r => r.value c.path c.column).filter (!·.isNull) :=
      List.mem_filter.mpr ⟨List.mem_map_of_mem hrow, by rw [hnull]; rfl⟩
    obtain ⟨v, rest, hvalues⟩ := List.exists_cons_of_ne_nil (List.ne_nil_of_mem hvalue)
    obtain ⟨hextreme, hle⟩ := @Server.extreme_spec sv c.dir v rest
    rw [← hvalues] at hextreme hle
    obtain ⟨other, hother, he⟩ := List.mem_map.mp (List.mem_filter.mp hextreme).1
    refine Std.OrientedCmp.isLE_antisymm (hle _ hvalue) ?_
    rw [← he]
    exact h.first c hc other hother

/-- A page sorts a root row by the values of its leading joined row. -/
theorem pageKey_of_leads {root : Record} {row : Joined} (hrow : row ∈ p.rowsAt sv db root)
    (h : Leads sv p.rootSort (p.rowsAt sv db root) row) :
    sv.compareKeys p.rootDirs (p.pageKey sv db root) (row.sortKey p.rootSort) = .eq := by
  refine compareKeys_of_rank fun c hc => ?_
  unfold SortColumn.rootValue
  by_cases hroot : c.path = .root
  · rw [if_pos (Path.isRoot_iff.mpr hroot), hroot, ← root_of_mem_rowsAt hrow]
    exact Std.ReflCmp.compare_self
  · rw [if_neg fun hr => hroot (Path.isRoot_iff.mp hr)]
    exact rank_extreme_of_leads h hrow hc

/-- Where rows have the same value in all columns but one, one of them leads the others, if in that one either all or
none of them have nulls that come first. -/
theorem exists_leads {columns : List SortColumn} {rows : List Joined} (hrows : rows ≠ []) (c₀ : SortColumn)
    (hsame : ∀ c ∈ columns, c ≠ c₀ → ∀ row ∈ rows, ∀ other ∈ rows,
      row.value c.path c.column = other.value c.path c.column)
    (hnull : sv.nullsFirst c₀.dir = true → ∀ row ∈ rows, ∀ other ∈ rows,
      row.value c₀.path c₀.column = .null → other.value c₀.path c₀.column = .null) :
    ∃ row ∈ rows, Leads sv columns rows row := by
  obtain ⟨v, rest, hvalues⟩ := List.exists_cons_of_ne_nil
    (List.map_eq_nil_iff.not.mpr hrows : (rows.map fun r => r.value c₀.path c₀.column) ≠ [])
  obtain ⟨hextreme, hle⟩ := @Server.extreme_spec sv c₀.dir v rest
  rw [← hvalues] at hextreme hle
  obtain ⟨row, hrow, hvalue⟩ := List.mem_map.mp hextreme
  have hfirst : ∀ other ∈ rows,
      (sv.rank c₀.dir (row.value c₀.path c₀.column) (other.value c₀.path c₀.column)).isLE = true := by
    intro other hother
    rw [hvalue]
    exact hle _ (List.mem_map_of_mem hother)
  refine ⟨row, hrow, fun c hc other hother => ?_, fun c hc hrowNull other hother => ?_⟩
  · by_cases hne : c = c₀
    · rw [hne]
      exact hfirst other hother
    · rw [hsame c hc hne row hrow other hother]
      exact Std.ReflCmp.isLE_rfl
  · by_cases hne : c = c₀
    · rw [hne] at hrowNull ⊢
      cases hplace : sv.nullsFirst c₀.dir with
      | true => exact hnull hplace row hrow other hother hrowNull
      | false =>
        -- a null that comes last and yet first is all there is
        have hrank := hfirst other hother
        unfold Server.rank at hrank
        rw [hrowNull, hplace] at hrank
        by_contra hsomeValue
        rw [Bool.eq_false_iff.mpr fun hn => hsomeValue (Value.isNull_eq_true.mp hn)] at hrank
        exact Bool.false_ne_true hrank
    · rw [← hsame c hc hne row hrow other hother]
      exact hrowNull

/-- Where one ordering at most reads a joined table, a joined row that comes first by it leads the others. If the
ordering puts nulls first, no joined row of a root row may have a null there unless all have. -/
theorem aligned_of_relation_order (o₀ : BoundOrder) (h : ∀ o ∈ p.bound.orders, o.path.isRoot = true ∨ o = o₀)
    (hnull : sv.nullsFirst o₀.dir = true → ∀ root ∈ p.matching sv db, ∀ row ∈ p.rowsAt sv db root,
      ∀ other ∈ p.rowsAt sv db root, row.value o₀.path o₀.column = .null → other.value o₀.path o₀.column = .null) :
    p.Aligned sv db := by
  intro root hroot
  obtain ⟨row, hrow⟩ := exists_mem_rowsAt hroot
  refine exists_leads (List.ne_nil_of_mem hrow) ⟨o₀.path, o₀.column, o₀.dir⟩
    (fun c hc hne row hrow other hother => ?_) fun hfirst => hnull hfirst root hroot
  have hpath : c.path = .root := by
    rcases cases_of_mem_rootSort hc with hpath | ⟨o, ho, rfl⟩
    · exact hpath
    · exact Path.isRoot_iff.mp ((h o ho).resolve_right fun he => hne (by rw [he]))
  rw [Joined.value, Joined.value, hpath, root_of_mem_rowsAt hrow, root_of_mem_rowsAt hother]

/-- Where no ordering reads a joined table, the joined rows of a root row are alike. -/
theorem aligned_of_root_orders (h : ∀ o ∈ p.bound.orders, o.path.isRoot = true) : p.Aligned sv db := by
  refine aligned_of_relation_order ⟨.root, p.rootEntity.pkColumn.dbName, false⟩ (fun o ho => .inl (h o ho)) ?_
  intro _ root _ row hrow other hother hnull
  rwa [Joined.value, root_of_mem_rowsAt hother, ← root_of_mem_rowsAt hrow]

theorem compareKeys_isLE_of_rank {columns : List SortColumn} {f g : SortColumn → Value}
    (h : ∀ c ∈ columns, (sv.rank c.dir (f c) (g c)).isLE = true) :
    (sv.compareKeys (columns.map (·.dir)) (columns.map f) (columns.map g)).isLE = true := by
  induction columns with
  | nil => rfl
  | cons c rest ih =>
    obtain ⟨hc, hrest⟩ := List.forall_mem_cons.mp h
    rw [List.map_cons, List.map_cons, List.map_cons, Server.compareKeys, Ordering.isLE_then_iff_and]
    exact ⟨hc, .inr (ih hrest)⟩

/-- Where every root row has a leading joined row, statements first show the root rows in the order of pages. -/
theorem rootsInOrder_eq_sortRoots (h : p.Named) (hdb : db.Keyed sv p.schema) (haligned : p.Aligned sv db) :
    p.rootsInOrder sv db = p.sortRoots sv db := by
  refine eq_sortRoots h hdb (perm_rootsInOrder p sv db) (p.pageKey sv db) (fun _ _ => Std.ReflCmp.compare_self) ?_
  refine (pairwise_firstBefore p sv db).imp_of_mem fun {a b} ha hb ⟨x, hx, hxa, hle⟩ => ?_
  obtain ⟨row, hrow, hleads⟩ := haligned a ((perm_rootsInOrder p sv db).mem_iff.mp ha)
  obtain ⟨row', hrow', hleads'⟩ := haligned b ((perm_rootsInOrder p sv db).mem_iff.mp hb)
  have hxAt : x ∈ p.rowsAt sv db a := List.mem_filter.mpr ⟨hx, decide_eq_true hxa⟩
  have hrowX : (sv.compareKeys p.rootDirs (row.sortKey p.rootSort) (x.sortKey p.rootSort)).isLE = true :=
    compareKeys_isLE_of_rank fun c hc => hleads.first c hc x hxAt
  have hxRow : (sv.compareKeys p.rootDirs (x.sortKey p.rootSort) (row'.sortKey p.rootSort)).isLE = true :=
    hle row' (List.mem_filter.mp hrow').1 (root_of_mem_rowsAt hrow')
  rw [Server.compareKeys_congr (pageKey_of_leads hrow hleads) (pageKey_of_leads hrow' hleads')]
  exact Server.compareKeys_trans _ hrowX hxRow

/-! ### Slices -/

/-- Keeping, of things with different keys, those with the keys of some of them in order keeps these. -/
theorem filter_eq_of_sublist {α β : Type} {f : α → β} {keep : α → Bool} {l m : List α} (h : m.Sublist l)
    (hnodup : (l.map f).Nodup) (hkeep : ∀ a ∈ l, keep a = true ↔ f a ∈ m.map f) : l.filter keep = m := by
  induction h with
  | slnil => rfl
  | @cons m l a hsub ih =>
    rw [List.map_cons, List.nodup_cons] at hnodup
    obtain ⟨ha, hrest⟩ := List.forall_mem_cons.mp hkeep
    have hnot : ¬keep a = true := fun hmem => hnodup.1 ((hsub.map f).subset (ha.mp hmem))
    rw [List.filter_cons_of_neg hnot, ih hnodup.2 hrest]
  | @cons_cons m l a hsub ih =>
    rw [List.map_cons, List.nodup_cons] at hnodup
    obtain ⟨ha, hrest⟩ := List.forall_mem_cons.mp hkeep
    rw [List.filter_cons_of_pos (ha.mpr (List.mem_cons_self ..)), ih hnodup.2 fun b hb => ?_]
    have hne : f b ≠ f a := fun he => hnodup.1 (he ▸ List.mem_map_of_mem hb)
    rw [hrest b hb, List.map_cons, List.mem_cons]
    exact or_iff_right hne

variable {r : Request} {registry : AliasRegistry} {tree : JoinTree}

/-- Where root rows come in the order of pages, the instances of a page are a slice of all. -/
theorem filter_allInstances_eq_bounded (h : Answerable s r registry p) (hdb : db.Sound sv p.schema)
    (ht : p.tree = .ok tree) (horder : p.rootsInOrder sv db = p.sortRoots sv db) :
    ((p.allInstances sv db tree).filter fun i => i.key p.schema ∈ (p.pageRoots sv db).map p.instanceKey) =
      bounded r.limit r.offset (p.allInstances sv db tree) := by
  have hkeys := map_key_allInstances h.named hdb h.from_ ht (h.selects_key ht)
  have hpage : (p.pageRoots sv db).map p.instanceKey =
      (bounded r.limit r.offset (p.allInstances sv db tree)).map fun i => i.key p.schema := by
    rw [Prepared.pageRoots, h.request_eq, map_bounded, map_bounded, hkeys, horder]
  rw [hpage]
  exact filter_eq_of_sublist (bounded_sublist _ _ _) (nodup_key_allInstances h hdb ht) fun _ _ => decide_eq_true_iff

/-- Where nothing is joined, bounding joined rows is keeping those of the root rows on the page. -/
theorem filter_sortRows_unjoined (h : p.Named) (hdb : db.Keyed sv p.schema) (hnone : p.bound.resolved = [])
    (horder : p.rootsInOrder sv db = p.sortRoots sv db) :
    ((p.sortRows sv (p.keptRows sv db)).filter fun row => row .root ∈ p.pageRoots sv db) =
      bounded p.request.limit p.request.offset (p.sortRows sv (p.keptRows sv db)) := by
  have hroots : ((p.sortRows sv (p.keptRows sv db)).map fun row => row .root).Nodup := by
    have hall : (p.joinedRows sv db).map (fun row => row .root) = db.of p.schema p.request.root := by
      unfold Prepared.joinedRows
      rw [hnone, List.map_flatMap]
      exact List.flatMap_singleton' _
    refine ((perm_sortRows p sv _).map _).nodup_iff.mpr ((nodup_of hdb h.root).sublist ?_)
    exact hall ▸ (List.filter_sublist.map _)
  rw [Prepared.pageRoots, ← horder, Prepared.rootsInOrder, distinct_eq_self hroots, ← map_bounded]
  exact filter_eq_of_sublist (bounded_sublist _ _ _) hroots fun _ _ => decide_eq_true_iff

/-- For a request that joins nothing, engines fetch the instances of the root rows on the page, too. -/
theorem fetched_unjoined (h : Answerable s r registry p) (hdb : db.Sound sv p.schema) (hnone : p.bound.resolved = [])
    (ht : p.tree = .ok tree) (horder : p.rootsInOrder sv db = p.sortRoots sv db) (settings : Settings) :
    (db.engine sv s settings).fetched r registry =
      .ok ((p.allInstances sv db tree).filter fun i => i.key p.schema ∈ (p.pageRoots sv db).map p.instanceKey) := by
  obtain ⟨planned, registry', hrequest, hplan, hlabels⟩ := h.exists_plan settings
  obtain ⟨_, _, _, htree, -⟩ := plan_eq_ok hplan
  cases htree.symm.trans ht
  have hpage : p.paginatesRoot = false := by
    rw [Prepared.paginatesRoot, hnone]
    simp
  have hshows := shows_plain h.named hdb.keys hplan hpage
  rw [← filter_sortRows_unjoined h.named hdb.keys hnone horder] at hshows
  rw [fetched_eq hrequest, ← h.schema_eq,
    ofRows_plan h.named hdb h.from_ hplan hlabels (h.selects_key htree) hshows List.filter_sublist.subset]
  exact congrArg Except.ok (merge_rows_of_roots h.named hdb h.from_ htree (h.selects_key htree) (matching_subset_of h.named))

/-- Where every root row has a leading joined row, engines fetch a slice of all instances. -/
theorem fetched_aligned (h : Answerable s r registry p) (hdb : db.Sound sv p.schema) (hraw : r.limitRawSql = false)
    (ht : p.tree = .ok tree) (haligned : p.Aligned sv db) (settings : Settings) :
    (db.engine sv s settings).fetched r registry = .ok (bounded r.limit r.offset (p.allInstances sv db tree)) := by
  have horder := rootsInOrder_eq_sortRoots h.named hdb.keys haligned
  rw [← filter_allInstances_eq_bounded h hdb ht horder]
  by_cases hjoined : p.bound.resolved = []
  · exact fetched_unjoined h hdb hjoined ht horder settings
  · exact fetched_joined h hdb hraw hjoined ht settings

/-- The ordering by the primary key of the root, as it is bound. -/
def Prepared.keyOrder (p : Prepared) : BoundOrder := ⟨.root, p.rootEntity.pkColumn.dbName, false⟩

/-- The prepared request with the ordering by primary key in place of none. -/
def Prepared.byKey (p : Prepared) : Prepared :=
  { p with
    request := { p.request with orderBy := [.ascending pkAlias] }
    bound := { p.bound with orders := [p.keyOrder] } }

/-- Where no relation goes by the general name of the primary key, this name stands for it. -/
theorem bindOrder_pk {root : EntityId} (hfield : (s.entity root).hasField (s.entity root).pk = true)
    (hname : s.findRelation? root pkAlias = none) :
    s.bindOrder root (.ascending pkAlias) = .ok ⟨.root, (s.entity root).pkColumn.dbName, false⟩ := by
  have hparts : (OrderSpec.ascending pkAlias).parts = [pkAlias] := by decide
  obtain ⟨c, hc⟩ := Option.isSome_iff_exists.mp hfield
  have hpk : (s.entity root).pkColumn = c := by
    rw [Entity.pkColumn, hc, Option.getD_some]
  have hcname : c.name = (s.entity root).pk := name_of_column? hc
  have htarget : s.resolveField root (OrderSpec.ascending pkAlias).text [pkAlias] = .ok ⟨.root, root, .column c.name⟩ := by
    unfold Schema.resolveField
    rw [Schema.resolveFieldFrom, hname]
    dsimp only
    rw [Entity.fieldColumn?, if_pos rfl, hpk]
    rfl
  unfold Schema.bindOrder Schema.bindField
  rw [hparts, htarget]
  refine bind_eq_ok.mpr ⟨(.root, c, root), ?_, by rw [hpk]; rfl⟩
  refine bind_eq_ok.mpr ⟨_, rfl, ?_⟩
  dsimp only [FieldTarget.columnTarget, FieldTarget.referenced]
  rw [hcname, hc]
  rfl

theorem prepare_byKey {registry registry' : AliasRegistry} {r : Request} (hprepared : r.prepare s registry = (.ok p, registry'))
    (hnone : r.orderBy = []) (hfield : (s.entity r.root).hasField (s.entity r.root).pk = true)
    (hname : s.findRelation? r.root pkAlias = none) :
    ({ r with orderBy := [.ascending pkAlias] } : Request).prepare s registry = (.ok p.byKey, registry') := by
  obtain ⟨rfl, rfl, hbind, hassign, hcheck⟩ := prepare_eq_ok.mp hprepared
  obtain ⟨hprojection, hrelated, hfilters, horders, hresolved⟩ := bindRequest_eq_ok.mp hbind
  have hunordered : p.bound.orders = [] := by
    rw [hnone, mapM_eq_ok] at horders
    exact List.forall₂_nil_left_iff.mp horders
  have hreads : p.byKey.bound.reads p.byKey.request = p.bound.reads p.request ++ [.root] := by
    unfold BoundRequest.reads
    rw [hunordered, List.map_nil, List.append_nil, ← List.append_assoc]
    rfl
  have hbind' : p.byKey.request.bind p.schema = .ok p.byKey.bound := by
    refine bindRequest_eq_ok.mpr ⟨hprojection, hrelated, hfilters, mapM_eq_ok.mpr (.cons (bindOrder_pk hfield hname) .nil), ?_⟩
    -- the root is no path to join
    rw [hreads, List.foldl_append]
    exact hresolved
  exact prepare_eq_ok.mpr ⟨rfl, rfl, hbind', hassign, hcheck⟩

/-- Where nothing is to be ordered by, the ordering by primary key changes no row, no instance and no order. -/
theorem allInstances_byKey (hnone : p.bound.orders = []) (sv : Server) (db : Database) (tree : JoinTree) :
    p.byKey.allInstances sv db tree = p.allInstances sv db tree := by
  have hsort : p.byKey.rootSort = p.rootSort := by
    have hkey : p.byKey.rootSort = addSortColumn [⟨.root, p.rootEntity.pkColumn.dbName, .asc⟩] .root
      p.rootEntity.pkColumn.dbName := rfl
    rw [hkey, Prepared.rootSort, hnone, addSortColumn, if_pos (by simp)]
    rfl
  have hrows : p.byKey.rowSort = p.rowSort := by
    unfold Prepared.rowSort
    rw [hsort]
    rfl
  unfold Prepared.allInstances Prepared.sortRows
  rw [hrows]
  rfl

theorem orderBy_byKey (hnone : p.bound.orders = []) : p.byKey.orderBy = p.orderBy := by
  have hitems : (p.byKey.bound.orders.mapM fun o => o.item p.byKey.aliases p.byKey.rootTable) =
      .ok [⟨.col p.rootTable p.rootEntity.pkColumn.dbName, some .asc⟩] := mapM_eq_ok.mpr (.cons rfl .nil)
  have hnoItems : (p.bound.orders.mapM fun o => o.item p.aliases p.rootTable) = .ok [] := by
    rw [hnone]
    rfl
  have hbroken : p.byKey.addRootTieBreak [⟨.col p.rootTable p.rootEntity.pkColumn.dbName, some .asc⟩] =
      p.addRootTieBreak [] := by
    have hkey : ([⟨.col p.rootTable p.rootEntity.pkColumn.dbName, some .asc⟩] : List OrderItem).any
        (fun item => item.expr.isColumn p.rootTable p.rootEntity.pkColumn.dbName) = true := by
      simp [Expr.isColumn, Expr.col]
    exact if_pos hkey
  unfold Prepared.orderBy
  rw [hitems, hnoItems]
  change List.foldlM _ (p.byKey.addRootTieBreak _) _ = List.foldlM _ (p.addRootTieBreak _) _
  rw [hbroken]
  rfl

theorem Answerable.orders_eq_nil (h : Answerable s r registry p) (hnone : r.orderBy = []) : p.bound.orders = [] := by
  have hforall := mapM_eq_ok.mp h.named.bound.orders
  rw [h.request_eq, hnone] at hforall
  exact List.forall₂_nil_left_iff.mp hforall

theorem Answerable.byKey (h : Answerable s r registry p) (hnone : r.orderBy = [])
    (hname : s.findRelation? r.root pkAlias = none) :
    Answerable s { r with orderBy := [.ascending pkAlias] } registry p.byKey := by
  obtain ⟨registry', hprepared⟩ := h.prepared
  obtain ⟨settings, planned, hplan, hlabels⟩ := h.planned
  obtain ⟨joins, predicates, orderBy, htree, hjoins, hpredicates, horderBy, hquery⟩ := plan_eq_ok hplan
  have horders := h.orders_eq_nil hnone
  obtain ⟨planned', hplan', -, hselect⟩ :=
    exists_plan_of_parts (p := p.byKey) htree hjoins hpredicates ((orderBy_byKey horders).trans horderBy) settings
  refine ⟨h.schema, h.root, h.projection, ⟨registry', prepare_byKey hprepared hnone (h.schema.hasField_pk h.root) hname⟩,
    h.differ, settings, planned', hplan', ?_⟩
  rwa [hselect, show p.byKey.rootTable = p.rootTable from rfl, ← select_of_query hquery]

/-! ### First instances -/

theorem splitOrders_pk (prefetch joined : List Path) :
    splitOrders [.ascending pkAlias] prefetch joined = ([.ascending pkAlias], []) := by
  have hlength : (OrderSpec.ascending pkAlias).path.length = 1 := by decide
  have hnot : (prefetch.any fun path => path.prefixes.any fun step =>
      decide (step.length < (OrderSpec.ascending pkAlias).path.length) && step.isPrefixOf (OrderSpec.ascending pkAlias).path &&
        !joined.any step.isPrefixOf) = false := by
    refine List.any_eq_false.mpr fun path _ => Bool.eq_false_iff.mp (List.any_eq_false.mpr fun step hstep => ?_)
    obtain ⟨n, hn, rfl⟩ := List.mem_map.mp hstep
    have hlong : ¬Path.length ⟨path.segments.take (n + 1)⟩ < 1 := by
      have hle := List.mem_range.mp hn
      unfold Path.length at hle ⊢
      rw [List.length_take]
      omega
    rw [hlength, decide_eq_false hlong]
    exact Bool.false_ne_true
  unfold splitOrders
  dsimp only
  rw [List.filter_cons_of_pos (by rw [hnot]; rfl), List.filter_cons_of_neg (by rw [hnot]; exact Bool.false_ne_true)]
  rfl

/-- Asking for the first instance only bounds the request, and orders by primary key where nothing is ordered by. -/
theorem request_firstOnly {q : QuerySet} {later : List OrderSpec} (h : q.request s = .ok (r, later)) :
    (q.orderBy ≠ [] ∧ q.firstOnly.request s = .ok (r.withBounds (some 1) r.offset, later)) ∨
    (q.orderBy = [] ∧ r.orderBy = [] ∧ q.firstOnly.request s =
      .ok (({ r with orderBy := [.ascending pkAlias] } : Request).withBounds (some 1) r.offset, [])) := by
  unfold QuerySet.request at h ⊢
  obtain ⟨⟨⟩, hresolve, h⟩ := bind_eq_ok.mp h
  cases h
  cases horder : q.orderBy with
  | nil =>
    refine .inr ⟨rfl, rfl, bind_eq_ok.mpr ⟨(), hresolve, ?_⟩⟩
    unfold QuerySet.firstOnly
    rw [horder]
    dsimp only [List.isEmpty_nil]
    rw [if_pos rfl, splitOrders_pk]
    rfl
  | cons o rest =>
    refine .inl ⟨List.cons_ne_nil _ _, bind_eq_ok.mpr ⟨(), hresolve, ?_⟩⟩
    unfold QuerySet.firstOnly
    rw [horder]
    rfl

/-- If every root row has a leading joined row, then the page for any bounds is the slice that these bounds take from
all instances, in their order and each just as it is there. The first instance of a query set is the first of all. -/
theorem fetched_slice {entities : List EntityDecl} {relations : List RelationDecl}
    (hs : Schema.build entities relations = .ok s) {r : Request} (hroot : r.root.index < s.entities.length)
    (hprojection : r.projection = .empty) (hraw : r.limitRawSql = false) {registry registry' : AliasRegistry}
    {settings : Settings} {planned : PlannedQuery} (hplan : r.plan s settings registry = (.ok planned, registry'))
    (hlabels : (planned.query.select.map (·.label)).Nodup) (hnames : (planned.query.tables.map (·.name?)).Nodup)
    (sv : Server) {db : Database} (hdb : db.Sound sv s) {p : Prepared}
    (hprepared : r.prepare s registry = (.ok p, registry')) (haligned : p.Aligned sv db) :
    ∃ all : List Instance,
      (∀ limit offset settings', (db.engine sv s settings').fetched (r.withBounds limit offset) registry =
        .ok (bounded limit offset all)) ∧
      ∀ q later, QuerySet.request q s = .ok (r, later) → (q.orderBy = [] → s.findRelation? r.root pkAlias = none) →
        ∃ first later', q.firstOnly.request s = .ok (first, later') ∧
          ∀ settings', (db.engine sv s settings').fetched first registry = .ok (bounded (some 1) r.offset all) := by
  obtain ⟨p', hp', hok, h, -⟩ := answerable_of_plan (wellFormed_build hs) hroot hprojection hplan hlabels hnames
  obtain rfl : p' = p := Except.ok.inj (Prod.mk.inj (hp'.symm.trans hprepared)).1
  obtain ⟨_, _, _, htree, -⟩ := plan_eq_ok hok
  have hschema := h.schema_eq
  subst hschema
  have hslice : ∀ limit offset settings', (db.engine sv p'.schema settings').fetched (r.withBounds limit offset) registry =
      .ok (bounded limit offset (p'.allInstances sv db planned.tree)) := fun limit offset settings' =>
    fetched_aligned (h.withBounds limit offset) hdb hraw htree haligned settings'
  refine ⟨p'.allInstances sv db planned.tree, hslice, fun q later hq hname => ?_⟩
  rcases request_firstOnly hq with ⟨-, hfirst⟩ | ⟨hnone, horders, hfirst⟩
  · exact ⟨_, _, hfirst, hslice _ _⟩
  · refine ⟨_, _, hfirst, fun settings' => ?_⟩
    rw [← allInstances_byKey (h.orders_eq_nil horders)]
    exact fetched_aligned ((h.byKey horders (hname hnone)).withBounds (some 1) r.offset) hdb hraw htree
      (aligned_of_root_orders (List.forall_mem_singleton.mpr rfl)) settings'

/-- Authors and their books. -/
def authorEntities : List EntityDecl :=
  [⟨"Author", "authors", some "id", [⟨"id", "id", false⟩], by decide⟩,
   ⟨"Book", "books", some "id",
     [⟨"id", "id", false⟩, ⟨"year", "year", false⟩, ⟨"pages", "pages", false⟩, ⟨"author_id", "author_id", true⟩],
     by decide⟩]

def authorRelations : List RelationDecl :=
  [⟨"Book", "author", "Author", .foreignKey "author_id", true, some "books"⟩]

def authorSchema : Schema :=
  ⟨[⟨"Author", "authors", "id", [⟨"id", "id", false⟩]⟩,
    ⟨"Book", "books", "id",
      [⟨"id", "id", false⟩, ⟨"year", "year", false⟩, ⟨"pages", "pages", false⟩, ⟨"author_id", "author_id", true⟩]⟩],
   [⟨"author", .foreignKey "author_id", ⟨1⟩, ⟨0⟩, true, false, some "books", ⟨1⟩⟩,
    ⟨"books", .reverseForeignKey "author_id", ⟨0⟩, ⟨1⟩, true, true, some "author", ⟨0⟩⟩]⟩

/-- The first author has a long book and, years later, a short one; the second has one book, from the year of the long
one and shorter than it. -/
def authorDatabase : Database where
  rows
    | "authors" => [[("id", .int 1)], [("id", .int 2)]]
    | "books" =>
      [[("id", .int 1), ("year", .int 1990), ("pages", .int 900), ("author_id", .int 1)],
       [("id", .int 2), ("year", .int 2001), ("pages", .int 100), ("author_id", .int 1)],
       [("id", .int 3), ("year", .int 1990), ("pages", .int 500), ("author_id", .int 2)]]
    | _ => []

/-- The first author by the year of the books. -/
def authorRequest : Request :=
  { root := ⟨0⟩, selectRelated := [⟨["books"]⟩], orderBy := [⟨["books", "year"], false⟩], limit := some 1 }

/-- The first author by the year and then the length of the books. -/
def lengthRequest : Request :=
  { authorRequest with orderBy := [⟨["books", "year"], false⟩, ⟨["books", "pages"], false⟩] }

def authorRegistry : AliasRegistry := ⟨6, [(.edge "authors" "books", ⟨"b00c5a"⟩)]⟩

theorem sound_authorDatabase : authorDatabase.Sound .plain authorSchema := .of_entities (by decide +kernel)

theorem fetched_slice_author :
    Schema.build authorEntities authorRelations = .ok authorSchema ∧
      authorRequest.root.index < authorSchema.entities.length ∧ authorRequest.projection = .empty ∧
      authorRequest.limitRawSql = false ∧ authorDatabase.Sound .plain authorSchema ∧
      ∃ planned registry' p,
        authorRequest.plan authorSchema {} authorRegistry = (.ok planned, registry') ∧
          (planned.query.select.map (·.label)).Nodup ∧ (planned.query.tables.map (·.name?)).Nodup ∧
          authorRequest.prepare authorSchema authorRegistry = (.ok p, registry') ∧ p.Aligned .plain authorDatabase ∧
          ∃ all : List Instance, all.map (·.key authorSchema) = [(⟨0⟩, .int 1), (⟨0⟩, .int 2)] ∧
            ∀ limit offset settings,
              (authorDatabase.engine .plain authorSchema settings).fetched (authorRequest.withBounds limit offset)
                authorRegistry = .ok (bounded limit offset all) := by
  have hbuild : Schema.build authorEntities authorRelations = .ok authorSchema := by rfl
  have hroot : authorRequest.root.index < authorSchema.entities.length := by decide
  have hplan : (authorRequest.plan authorSchema {} authorRegistry).1.map (fun planned =>
      (planned.query.select.map (·.label), planned.query.tables.map (·.name?))) =
      .ok ([some "id", some "b00c5a_id", some "b00c5a_year", some "b00c5a_pages", some "b00c5a_author_id"],
        [some "authors", some "b00c5a"]) := by rfl
  obtain ⟨planned, hok, hshape⟩ := map_eq_ok.mp hplan
  obtain ⟨hselect, htables⟩ := Prod.mk.inj hshape
  have hlabels : (planned.query.select.map (·.label)).Nodup := by
    rw [hselect]
    decide
  have hnames : (planned.query.tables.map (·.name?)).Nodup := by
    rw [htables]
    decide
  have hpair : authorRequest.plan authorSchema {} authorRegistry =
      (.ok planned, (authorRequest.plan authorSchema {} authorRegistry).2) := Prod.ext hok rfl
  have hdecided : (authorRequest.prepare authorSchema authorRegistry).1.map
      (fun p => decide (p.Aligned .plain authorDatabase)) = .ok true := by decide +kernel
  obtain ⟨p, hp, haligned⟩ := map_eq_ok.mp hdecided
  obtain ⟨p', hprepared, -, -⟩ := answerable_of_plan (wellFormed_build hbuild) hroot rfl hpair hlabels hnames
  obtain rfl : p' = p := Except.ok.inj ((congrArg Prod.fst hprepared).symm.trans hp)
  obtain ⟨all, hslice, -⟩ := fetched_slice hbuild hroot rfl rfl hpair hlabels hnames .plain sound_authorDatabase hprepared
    (of_decide_eq_true haligned)
  have hkeys : ((authorDatabase.engine .plain authorSchema {}).fetched (authorRequest.withBounds none none)
      authorRegistry).map (fun all => all.map (·.key authorSchema)) = .ok [(⟨0⟩, .int 1), (⟨0⟩, .int 2)] := by
    decide +kernel
  rw [hslice] at hkeys
  exact ⟨hbuild, hroot, rfl, rfl, sound_authorDatabase, planned, _, p', hpair, hlabels, hnames, hprepared,
    of_decide_eq_true haligned, all, Except.ok.inj hkeys, hslice⟩

/-- By year and then by length, statements first show the second author, for the shorter of the two books of the first
year. Pages find the first author first, who has a book of that year and, another one, the shortest. -/
theorem page_not_slice :
    Schema.build authorEntities authorRelations = .ok authorSchema ∧ authorDatabase.Sound .plain authorSchema ∧
      lengthRequest.projection = .empty ∧ lengthRequest.limitRawSql = false ∧
      ((lengthRequest.plan authorSchema {} authorRegistry).1.map fun planned =>
        decide ((planned.query.select.map (·.label)).Nodup ∧ (planned.query.tables.map (·.name?)).Nodup)) = .ok true ∧
      ∃ all page : List Instance,
        (authorDatabase.engine .plain authorSchema {}).fetched (lengthRequest.withBounds none none) authorRegistry =
          .ok all ∧
        (authorDatabase.engine .plain authorSchema {}).fetched lengthRequest authorRegistry = .ok page ∧
        page ≠ bounded lengthRequest.limit lengthRequest.offset all := by
  have hall : ((authorDatabase.engine .plain authorSchema {}).fetched (lengthRequest.withBounds none none)
      authorRegistry).map (fun all => all.map (·.key authorSchema)) = .ok [(⟨0⟩, .int 2), (⟨0⟩, .int 1)] := by
    decide +kernel
  have hpage : ((authorDatabase.engine .plain authorSchema {}).fetched lengthRequest authorRegistry).map
      (fun page => page.map (·.key authorSchema)) = .ok [(⟨0⟩, .int 1)] := by decide +kernel
  obtain ⟨all, hfetched, hallKeys⟩ := map_eq_ok.mp hall
  obtain ⟨page, hfetchedPage, hpageKeys⟩ := map_eq_ok.mp hpage
  refine ⟨by rfl, sound_authorDatabase, rfl, rfl, by decide +kernel, all, page, hfetched, hfetchedPage, fun he => ?_⟩
  rw [he, map_bounded, hallKeys] at hpageKeys
  exact absurd hpageKeys (by decide)

end RelQuery
