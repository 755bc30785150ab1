import RelQuery.Proofs.Plan.Bounds
import RelQuery.Proofs.Plan.Page
import RelQuery.Proofs.Projection

/-!
# Pagination

A statement for a page is answered by the joined rows of the root rows on the page, all of them and in the order of the
statement for all pages. So slicing and merging its answer gives instances that the statement for all pages gives, as
many as the page holds, whichever way the page is written.
-/

namespace RelQuery

open Sql

variable {sv : Server} {db : Database} {p : Prepared}

/-! ### What a page answers -/

theorem perm_distinct {α : Type} [DecidableEq α] {l l' : List α} (h : l.Perm l') : (distinct l).Perm (distinct l') :=
  (List.perm_ext_iff_of_nodup (distinct_nodup _) (distinct_nodup _)).mpr fun x => by
    rw [mem_distinct, mem_distinct, h.mem_iff]

theorem same_self (v : Value) : sv.same v v = true := by
  unfold Server.same
  cases v.isNull with
  | true => rfl
  | false =>
    have hself : sv.compare v v = .eq := Std.ReflCmp.compare_self
    rw [hself]
    rfl

/-- For values other than null, to belong to one group is to be equal. -/
theorem same_eq_equal {a b : Value} (ha : a ≠ .null) (hb : b ≠ .null) : sv.same a b = sv.equal a b := by
  have hnull : a.isNull = false := Bool.eq_false_iff.mpr fun h => ha (Value.isNull_eq_true.mp h)
  have hnull' : b.isNull = false := Bool.eq_false_iff.mpr fun h => hb (Value.isNull_eq_true.mp h)
  unfold Server.same Server.equal Server.binary
  rw [hnull, hnull']
  cases sv.compare a b <;> rfl

theorem same_key_iff (h : p.Named) (hdb : db.Keyed sv p.schema) {a b : Record}
    (ha : a ∈ db.of p.schema p.request.root) (hb : b ∈ db.of p.schema p.request.root) :
    sv.same (p.rootEntity.key a) (p.rootEntity.key b) = true ↔ a = b := by
  have hkeyed : ∀ r ∈ db.of p.schema p.request.root, p.rootEntity.key r ≠ .null := hdb.keyed _ h.root
  rw [same_eq_equal (hkeyed a ha) (hkeyed b hb)]
  exact equal_key_iff h hdb ha hb

theorem sameKeys_map {α : Type} (f g : α → Value) (l : List α) :
    sv.sameKeys (l.map f) (l.map g) = l.all fun a => sv.same (f a) (g a) := by
  have hlength : (l.map f).length = (l.map g).length := by rw [List.length_map, List.length_map]
  rw [Server.sameKeys, hlength, beq_self_eq_true, Bool.true_and]
  induction l with
  | nil => rfl
  | cons a rest ih =>
    rw [List.map_cons, List.map_cons, List.zip_cons_cons, List.all_cons, List.all_cons,
      ih (by rw [List.length_map, List.length_map])]

theorem valuesOf_rootColumns (h : p.Named) (t : Tuple) :
    valuesOf sv db [t] p.rootColumns =
      (p.rootEntity.columns.map (·.dbName)).map fun column => (p.rowOf p.bound.resolved t .root).at_ column := by
  have hvalues : ∀ es : List Expr, valuesOf sv db [t] es = es.map fun e => e.value sv db [t] := by
    intro es
    induction es with
    | nil => rfl
    | cons e rest ih => rw [valuesOf, ih, List.map_cons]
  rw [hvalues, Prepared.rootColumns, List.map_map, List.map_map]
  refine List.map_congr_left fun c hc => ?_
  have hplace : p.HasPlace .root c.dbName := ⟨fun hne => absurd rfl hne, [], p.request.root, rfl, List.mem_map_of_mem hc⟩
  exact hplace.column_eq h rfl t

/-- Grouping by all columns of the root is grouping by root row. -/
theorem sameKeys_rootColumns (h : p.Named) (hdb : db.Keyed sv p.schema) {t u : Tuple}
    (ht : p.rowOf p.bound.resolved t .root ∈ db.of p.schema p.request.root)
    (hu : p.rowOf p.bound.resolved u .root ∈ db.of p.schema p.request.root) :
    sv.sameKeys (valuesOf sv db [t] p.rootColumns) (valuesOf sv db [u] p.rootColumns) = true ↔
      p.rowOf p.bound.resolved t .root = p.rowOf p.bound.resolved u .root := by
  rw [valuesOf_rootColumns h, valuesOf_rootColumns h, sameKeys_map, List.all_eq_true]
  constructor
  · exact fun hall => (same_key_iff h hdb ht hu).mp (hall _ (h.schema.pk_mem h.root))
  · intro he column _
    rw [he]
    exact same_self _

/-- Where no ordering reads a joined table, a page sorts a root row by its own values. -/
theorem rootKeyOf_eq (hnone : p.ordersByRelation = false) (root : Record) (rows rows' : List Joined) :
    p.rootKeyOf sv root rows = p.rootKeyOf sv root rows' := by
  have hroot : ∀ c ∈ p.rootSort, c.path.isRoot = true := fun c hc =>
    path_of_mem_rootSort (fun o ho => by simpa using List.any_eq_false.mp hnone o ho) hc
  refine List.map_congr_left fun c hc => ?_
  unfold SortColumn.rootValue
  rw [if_pos (hroot c hc), if_pos (hroot c hc)]

theorem rootColumns_ne_nil (h : p.Named) : p.rootColumns ≠ [] := by
  intro hnone
  have hmem := h.schema.pk_mem h.root
  rw [Prepared.rootColumns, List.map_eq_nil_iff] at hnone
  rw [show (p.schema.entity p.request.root).columns = [] from hnone] at hmem
  cases hmem

/-- The tuples of a root row: there is a first one, and together they show the joined rows of the root row. -/
theorem tuples_of_root {tuples : List Tuple} {r : Record}
    (hrows : (tuples.map (p.rowOf p.bound.resolved)).Perm (p.keptRows sv db))
    (hr : r ∈ tuples.map fun t => p.rowOf p.bound.resolved t .root) :
    ∃ t more, (tuples.filter fun t => p.rowOf p.bound.resolved t .root = r) = t :: more ∧
      p.rowOf p.bound.resolved t .root = r ∧ ((t :: more).map (p.rowOf p.bound.resolved)).Perm (p.rowsAt sv db r) := by
  obtain ⟨t, ht, htr⟩ := List.mem_map.mp hr
  have hne : (tuples.filter fun t => p.rowOf p.bound.resolved t .root = r) ≠ [] :=
    List.ne_nil_of_mem (List.mem_filter.mpr ⟨ht, decide_eq_true htr⟩)
  obtain ⟨first, more, hfirst⟩ := List.exists_cons_of_ne_nil hne
  refine ⟨first, more, hfirst, ?_, ?_⟩
  · have hmem : first ∈ tuples.filter fun t => p.rowOf p.bound.resolved t .root = r := hfirst ▸ List.mem_cons_self ..
    exact of_decide_eq_true (List.mem_filter.mp hmem).2
  · rw [← hfirst]
    have hfiltered := hrows.filter fun row => decide (row .root = r)
    rwa [List.filter_map] at hfiltered

/-- A query that groups the kept joined rows by root row and sorts and cuts the groups as a page does. -/
theorem answer_grouped_page (h : p.Named) (hdb : db.Keyed sv p.schema) {q : Query} (hgroup : q.groupBy = p.rootColumns)
    (hkept : (q.kept sv db).map (p.rowOf p.bound.resolved) = p.keptRows sv db)
    (hsorts : List.Forall₂ (SortColumn.SortsRoots p) p.rootSort q.orderBy)
    (hbounds : q.bounds = LimitOffset.of? p.request.limit p.request.offset) {cells : Record → Record}
    (hcells : ∀ t more, cellsOfItems sv db (t :: more) q.select = cells (p.rowOf p.bound.resolved t .root)) :
    q.answer sv db = (p.pageRoots sv db).map cells := by
  let cls : Tuple → Record := fun t => p.rowOf p.bound.resolved t .root
  have hfit : ∀ t ∈ q.kept sv db, cls t ∈ db.of p.schema p.request.root := by
    intro t ht
    have hrow : p.rowOf p.bound.resolved t ∈ p.keptRows sv db := hkept ▸ List.mem_map_of_mem ht
    exact (fits_of_mem_keptRows h hrow).root
  obtain ⟨arranged, sorted, harranged, hperm, hsorted, hanswer⟩ := @answer_grouped sv db Record _ q cls
    (hgroup ▸ rootColumns_ne_nil h) (fun t ht u hu => hgroup ▸ sameKeys_rootColumns h hdb (hfit t ht) (hfit u hu))
  have hrows : (arranged.map (p.rowOf p.bound.resolved)).Perm (p.keptRows sv db) := hkept ▸ harranged.map _
  have hmatching : sorted.Perm (p.matching sv db) := by
    refine hperm.trans (perm_distinct ?_)
    have hroots := hrows.map fun row => row .root
    rwa [List.map_map] at hroots
  have hgroups := fun r (hr : r ∈ sorted) => tuples_of_root hrows (mem_distinct.mp (hperm.mem_iff.mp hr))
  -- the groups are sorted by what a page sorts their root rows by, so the root rows come as they do on a page
  have hroots : sorted = p.sortRoots sv db := by
    refine eq_sortRoots h hdb hmatching
      (fun r => p.rootKeyOf sv r ((arranged.filter fun t => cls t = r).map (p.rowOf p.bound.resolved)))
      (fun r hr => ?_) (hsorted.imp_of_mem fun {r r'} hr hr' hle => ?_)
    · obtain ⟨t, more, hgroup', -, hperm'⟩ := hgroups r hr
      rw [hgroup']
      exact compareKeys_rootKeyOf hperm'
    · obtain ⟨t, more, hgroup', hcls, -⟩ := hgroups r hr
      obtain ⟨t', more', hgroup'', hcls', -⟩ := hgroups r' hr'
      unfold Query.Ordered Query.dirs at hle
      rw [hgroup', hgroup'', orderKeys_roots h hsorts, orderKeys_roots h hsorts,
        dirs_eq_map hsorts fun _ _ hc => hc.dir] at hle
      rw [hgroup', hgroup'', ← hcls, ← hcls']
      exact hle
  rw [hanswer, Query.limit_of_bounds hbounds, Query.offset_of_bounds hbounds, Prepared.pageRoots, ← hroots]
  refine List.map_congr_left fun r hr => ?_
  obtain ⟨t, more, hgroup', hcls, -⟩ := hgroups r ((bounded_sublist _ _ _).subset hr)
  rw [hgroup', hcells, ← hcls]

/-- A query of the matching root rows that sorts and cuts them as a page does. -/
theorem answer_plain_page (h : p.Named) (hdb : db.Keyed sv p.schema) (hnone : p.ordersByRelation = false) {q : Query}
    (hgroup : q.groupBy = []) (hselect : q.select.any (·.expr.isAggregate) = false)
    (hkept : ((q.kept sv db).map fun t => p.rowOf p.bound.resolved t .root).Perm (p.matching sv db))
    (hsorts : List.Forall₂ (SortColumn.SortsRoots p) p.rootSort q.orderBy)
    (hbounds : q.bounds = LimitOffset.of? p.request.limit p.request.offset) {cells : Record → Record}
    (hcells : ∀ t more, cellsOfItems sv db (t :: more) q.select = cells (p.rowOf p.bound.resolved t .root)) :
    q.answer sv db = (p.pageRoots sv db).map cells := by
  obtain ⟨sorted, hperm, hsorted, hanswer⟩ := @answer_plain sv db q hgroup hselect
  have hroots : (sorted.map fun t => p.rowOf p.bound.resolved t .root) = p.sortRoots sv db := by
    refine eq_sortRoots h hdb ((hperm.map _).trans hkept) (fun r => p.rootKeyOf sv r [])
      (fun r _ => ?_) (List.pairwise_map.mpr (hsorted.imp fun {t u} hle => ?_))
    · rw [Prepared.pageKey, rootKeyOf_eq hnone r [] (p.rowsAt sv db r)]
      exact Std.ReflCmp.compare_self
    · unfold Query.Ordered Query.dirs at hle
      rw [orderKeys_roots h hsorts, orderKeys_roots h hsorts, dirs_eq_map hsorts fun _ _ hc => hc.dir,
        rootKeyOf_eq hnone _ _ [], rootKeyOf_eq hnone (p.rowOf p.bound.resolved u .root) _ []] at hle
      exact hle
  rw [hanswer, Query.limit_of_bounds hbounds, Query.offset_of_bounds hbounds, Prepared.pageRoots, ← hroots,
    ← map_bounded, List.map_map]
  exact List.map_congr_left fun t _ => hcells t []

theorem answer_page (h : p.Named) (hdb : db.Keyed sv p.schema) {js : List Join} (hjs : p.joins = .ok js)
    {predicates : List Predicate} (hp : p.predicates = .ok predicates) {select : List SelectItem} {page : Query}
    (hpage : p.page js predicates select = .ok page) (hselect : select.any (·.expr.isAggregate) = false)
    {cells : Record → Record}
    (hcells : ∀ t more, cellsOfItems sv db (t :: more) select = cells (p.rowOf p.bound.resolved t .root)) :
    page.answer sv db = (p.pageRoots sv db).map cells := by
  unfold Prepared.page at hpage
  obtain ⟨items, hitems, hpage⟩ := bind_eq_ok.mp hpage
  have hsorts := sortsRoots_pageOrder h hitems
  cases hpage
  unfold Prepared.pageRows
  dsimp only
  by_cases hjoined : p.ordersByRelation = true
  · rw [if_pos hjoined]
    refine answer_grouped_page h hdb rfl ?_ hsorts rfl hcells
    exact map_rowOf_kept h hjs hp
  · rw [if_neg hjoined]
    have hnone := Bool.eq_false_iff.mpr hjoined
    by_cases hempty : ((predicates.filter (!·.rootOnly)).map (·.expr)).isEmpty = true
    · rw [if_pos hempty]
      refine answer_plain_page h hdb hnone rfl hselect ?_ hsorts rfl hcells
      exact perm_matching_of_condition h hdb fun t ht => holdsIn_page_rootOnly h hp hempty ht
    · rw [if_neg hempty]
      refine answer_plain_page h hdb hnone rfl hselect ?_ hsorts rfl hcells
      exact perm_matching_of_condition h hdb fun t ht => holdsIn_page h hdb hjs hp ht

/-! ### Joined rows of the root rows on a page -/

/-- The kept joined rows of the root rows on the page. -/
def Prepared.rowsOnPage (p : Prepared) (sv : Server) (db : Database) : List Joined :=
  (p.keptRows sv db).filter fun row => row .root ∈ p.pageRoots sv db

theorem pageRoots_subset_matching (p : Prepared) (sv : Server) (db : Database) :
    p.pageRoots sv db ⊆ p.matching sv db := fun _ hr =>
  mem_sortRoots.mp ((pageRoots_sublist p sv db).subset hr)

/-- Joining the root rows of the page and applying the conditions on joined tables gives their kept joined rows. -/
theorem perm_rowsOnPage (h : p.Named) (hdb : db.Keyed sv p.schema) :
    (((p.pageRoots sv db).flatMap fun r => joinPaths sv db p.schema p.bound.resolved (.start r)).filter
      (p.rowHolds sv db)).Perm (p.rowsOnPage sv db) := by
  have hroots : ((db.of p.schema p.request.root).filter fun r => decide (r ∈ p.pageRoots sv db)).Perm
      (p.pageRoots sv db) := by
    refine (List.perm_ext_iff_of_nodup ((nodup_of hdb h.root).filter _)
      ((nodup_sortRoots p sv db).sublist (pageRoots_sublist p sv db))).mpr fun r => ?_
    rw [List.mem_filter, decide_eq_true_iff]
    exact ⟨fun hr => hr.2, fun hr => ⟨matching_subset h (pageRoots_subset_matching p sv db hr), hr⟩⟩
  have hrows : p.rowsOnPage sv db =
      ((db.of p.schema p.request.root).filter fun r => decide (r ∈ p.pageRoots sv db)).flatMap fun r =>
        (joinPaths sv db p.schema p.bound.resolved (.start r)).filter (p.rowHolds sv db) := by
    unfold Prepared.rowsOnPage Prepared.keptRows Prepared.joinedRows
    rw [List.filter_comm, filter_flatMap_of_forall fun r _ row hrow =>
      congrArg (fun root => decide (root ∈ p.pageRoots sv db)) (root_of_mem_joinPaths h hrow), List.filter_flatMap]
    refine List.flatMap_congr fun r hr => List.filter_congr fun row hrow => ?_
    -- what a filter says of the root holds of every root row on the page
    have hmatching : r ∈ p.matching sv db :=
      pageRoots_subset_matching p sv db (of_decide_eq_true (List.mem_filter.mp hr).2)
    have hholds := ((mem_matching_iff h (matching_subset h hmatching)).mp hmatching).1
    rw [keeps_eq, show row .root = r from root_of_mem_joinPaths h hrow, hholds, Bool.true_and]
  rw [hrows, List.filter_flatMap]
  exact hroots.symm.flatMap_right _

/-- A page that stands in place of the root table. -/
theorem rows_of_derivedPage (h : p.Named) (hdb : db.Keyed sv p.schema) {js : List Join} (hjs : p.joins = .ok js)
    {predicates : List Predicate} (hp : p.predicates = .ok predicates) {page : Query}
    (hpage : p.page js predicates (p.rootColumns.map fun e => ⟨e, none⟩) = .ok page) :
    (((joinAll sv db (tuplesOf sv db (some (.ofQuery page p.rootTable))) js).filter fun t =>
        holdsIn sv db t (Expr.all? ((predicates.filter (!·.rootOnly)).map (·.expr)))).map
          (p.rowOf p.bound.resolved)).Perm (p.rowsOnPage sv db) := by
  have hcells : ∀ t more, cellsOfItems sv db (t :: more) (p.rootColumns.map fun e => (⟨e, none⟩ : SelectItem)) =
      p.rootEntity.record (p.rowOf p.bound.resolved t .root) := by
    intro t more
    rw [cellsOfItems_eq_map, Prepared.rootColumns, List.map_map, List.map_map]
    refine List.map_congr_left fun c hc => ?_
    have hplace : p.HasPlace .root c.dbName :=
      ⟨fun hne => absurd rfl hne, [], p.request.root, rfl, List.mem_map_of_mem hc⟩
    exact congrArg (Prod.mk c.dbName) (hplace.column_eq h rfl t)
  have hselect : (p.rootColumns.map fun e => (⟨e, none⟩ : SelectItem)).any (·.expr.isAggregate) = false := by
    rw [Prepared.rootColumns, List.map_map, List.any_map]
    exact List.any_eq_false.mpr fun _ _ => Bool.false_ne_true
  have hanswer := answer_page h hdb hjs hp hpage hselect hcells
  have htuples : tuplesOf sv db (some (.ofQuery page p.rootTable)) =
      ((p.pageRoots sv db).map p.rootEntity.record).map fun r => [(p.rootTable, r)] := by
    change (((page.answer sv db).map fun r => (p.rootTable, r)).map fun entry => [entry]) = _
    rw [hanswer, List.map_map]
    rfl
  have hrecord : ∀ r ∈ p.pageRoots sv db, p.rootEntity.record r = r := by
    intro r hr
    obtain ⟨r', -, rfl⟩ := List.mem_map.mp (matching_subset h (pageRoots_subset_matching p sv db hr))
    exact Entity.record_record _ _
  have hrows : (joinAll sv db (tuplesOf sv db (some (.ofQuery page p.rootTable))) js).map (p.rowOf p.bound.resolved) =
      (p.pageRoots sv db).flatMap fun r => joinPaths sv db p.schema p.bound.resolved (.start r) := by
    rw [htuples, map_rowOf_joinAll h hjs, List.flatMap_map]
    refine List.flatMap_congr fun r hr => ?_
    rw [hrecord r hr, hrecord r hr]
  have hkept : ∀ t : Tuple, holdsIn sv db t (Expr.all? ((predicates.filter (!·.rootOnly)).map (·.expr))) =
      p.rowHolds sv db (p.rowOf p.bound.resolved t) := by
    intro t
    rw [holdsIn_all?, all_onJoined h hp]
  refine List.Perm.trans (List.Perm.of_eq ?_) (perm_rowsOnPage h hdb)
  rw [← hrows, List.filter_map]
  congr 1
  exact List.filter_congr fun t _ => hkept t

theorem values_keysOf (h : p.Named) (hdb : db.Keyed sv p.schema) {js : List Join} (hjs : p.joins = .ok js)
    {predicates : List Predicate} (hp : p.predicates = .ok predicates) {page : Query}
    (hpage : p.page js predicates [⟨p.rootKey, none⟩] = .ok page) :
    (((p.keysOf page).answer sv db).map fun r => ((r.head?).map (·.2)).getD .null).Perm
      ((p.pageRoots sv db).map p.rootEntity.key) := by
  have hcells : ∀ t more, cellsOfItems sv db (t :: more) [⟨p.rootKey, none⟩] =
      [(p.rootEntity.pkColumn.dbName, p.rootEntity.key (p.rowOf p.bound.resolved t .root))] := by
    intro t more
    rw [← @value_rootKey sv db p h t more]
    rfl
  have hanswer : page.answer sv db =
      (p.pageRoots sv db).map fun r => [(p.rootEntity.pkColumn.dbName, p.rootEntity.key r)] :=
    answer_page h hdb hjs hp hpage rfl hcells
  obtain ⟨sorted, hperm, -, hkeys⟩ := @answer_plain sv db (p.keysOf page) rfl rfl
  have hkept : (p.keysOf page).kept sv db =
      (p.pageRoots sv db).map fun r => [(pageLabel, [(p.rootEntity.pkColumn.dbName, p.rootEntity.key r)])] := by
    have htuples : (p.keysOf page).kept sv db = ((page.answer sv db).map fun r => (pageLabel, r)).map fun entry => [entry] :=
      List.filter_true _
    rw [htuples, hanswer, List.map_map, List.map_map]
    rfl
  rw [hkeys, List.map_map]
  refine (hperm.map _).trans (List.Perm.of_eq ?_)
  rw [hkept, List.map_map]
  refine List.map_congr_left fun r _ => ?_
  change Tuple.column [(pageLabel, [(p.rootEntity.pkColumn.dbName, p.rootEntity.key r)])] (some pageLabel)
    p.rootEntity.pkColumn.dbName = p.rootEntity.key r
  rw [column_some, NameMap.get?_cons, if_pos rfl, Option.getD_some, Record.at_, NameMap.get?_cons, if_pos rfl]
  rfl

/-- A page whose keys select the root rows. -/
theorem rows_of_keysPage (h : p.Named) (hdb : db.Keyed sv p.schema) {js : List Join} (hjs : p.joins = .ok js)
    {predicates : List Predicate} (hp : p.predicates = .ok predicates) {page : Query}
    (hpage : p.page js predicates [⟨p.rootKey, none⟩] = .ok page) :
    ((joinAll sv db (tuplesOf sv db (some (.ofTable p.rootTable))) js).filter fun t =>
        holdsIn sv db t (Expr.all? (predicates.map (·.expr) ++ [.inQuery p.rootKey (p.keysOf page) false]))).map
          (p.rowOf p.bound.resolved) = p.rowsOnPage sv db := by
  have hsub : p.pageRoots sv db ⊆ db.of p.schema p.request.root := fun r hr =>
    matching_subset h (pageRoots_subset_matching p sv db hr)
  have hrows := @map_rowOf_rootTable sv db p h js hjs
  have hroot : ∀ t ∈ joinAll sv db (tuplesOf sv db (some (.ofTable p.rootTable))) js,
      p.rowOf p.bound.resolved t .root ∈ db.of p.schema p.request.root := by
    intro t ht
    have hrow : p.rowOf p.bound.resolved t ∈ p.joinedRows sv db := hrows ▸ List.mem_map_of_mem ht
    exact (fits_of_mem_joinedRows h hrow).root
  unfold Prepared.rowsOnPage
  rw [← map_rowOf_kept h hjs hp, List.filter_map, List.filter_filter]
  congr 1
  refine List.filter_congr fun t ht => ?_
  rw [holdsIn_all?, List.all_append, List.all_cons, List.all_nil, Bool.and_true,
    holds_inQuery h hdb hsub (values_keysOf h hdb hjs hp hpage) (hroot t ht), holdsIn_all?, Bool.and_comm,
    Function.comp_apply]

/-- The statement for a page is answered by the joined rows of its root rows, in the order of the statement. -/
theorem shows_page (h : p.Named) (hdb : db.Keyed sv p.schema) {settings : Settings} {planned : PlannedQuery}
    (hplan : p.plan settings = .ok planned) (hpage : p.paginatesRoot = true) :
    p.Shows sv db planned.query planned.tree
      ((p.sortRows sv (p.keptRows sv db)).filter fun row => row .root ∈ p.pageRoots sv db) := by
  obtain ⟨js, predicates, orderBy, -, hjs, hp, horder, hquery⟩ := plan_eq_ok hplan
  rw [← sortRows_filter h hdb fun row hrow => fits_of_mem_keptRows h hrow]
  have hfit : ∀ row ∈ p.rowsOnPage sv db, p.RowFits db row := fun row hrow =>
    fits_of_mem_keptRows h (List.mem_filter.mp hrow).1
  rcases query_cases hquery with ⟨hplain, -⟩ | ⟨-, page, hpageOk, hq⟩ | ⟨-, page, hpageOk, hq⟩
  · rw [hpage] at hplain
    cases hplain
  · rw [hq]
    exact shows_answer h hdb rfl rfl horder (rows_of_derivedPage h hdb hjs hp hpageOk) hfit
  · rw [hq]
    exact shows_answer h hdb rfl rfl horder (List.Perm.of_eq (rows_of_keysPage h hdb hjs hp hpageOk)) hfit

/-- The statement for all rows, and one that bounds its rows themselves, is answered by the kept joined rows. -/
theorem shows_plain (h : p.Named) (hdb : db.Keyed sv p.schema) {settings : Settings} {planned : PlannedQuery}
    (hplan : p.plan settings = .ok planned) (hpage : p.paginatesRoot = false) :
    p.Shows sv db planned.query planned.tree
      (bounded p.request.limit p.request.offset (p.sortRows sv (p.keptRows sv db))) := by
  obtain ⟨js, predicates, orderBy, -, hjs, hp, horder, hquery⟩ := plan_eq_ok hplan
  have hq := query_of_unpaged hquery hpage
  have hbounds : planned.query.bounds = LimitOffset.of? p.request.limit p.request.offset := by rw [hq]
  rw [← Query.limit_of_bounds hbounds, ← Query.offset_of_bounds hbounds, hq]
  exact shows_answer h hdb rfl rfl horder (List.Perm.of_eq (map_rowOf_kept h hjs hp)) fun row hrow =>
    fits_of_mem_keptRows h hrow

/-- Slicing the answer of a statement gives what the joined rows that it shows show. -/
theorem ofRows_plan (h : p.Named) (hdb : db.Sound sv p.schema) {registry : AliasRegistry}
    (hfrom : PreparedFrom p.schema registry p.request p) {settings : Settings} {planned : PlannedQuery}
    (hplan : p.plan settings = .ok planned) (hlabels : (planned.query.select.map (·.label)).Nodup)
    (hpk : planned.tree.columns.any (·.field == p.rootEntity.pk) = true) {rows : List Joined}
    (hshows : p.Shows sv db planned.query planned.tree rows)
    (hsub : rows ⊆ p.sortRows sv (p.keptRows sv db)) :
    (standardOf p.schema).ofRows planned.tree ((planned.query.answer sv db).map NameMap.ofPairs) =
      .ok (rows.map (planned.tree.read p.schema)) := by
  obtain ⟨_, _, _, htree, -⟩ := plan_eq_ok hplan
  rw [select_of_plan hplan] at hlabels
  exact ofRows_of_shows h hdb hfrom htree hlabels hpk hshows fun row hrow =>
    fits_of_mem_keptRows h (mem_sortRows.mp (hsub hrow))

end RelQuery
