import RelQuery.Proofs.Plan.Kept

/-!
# Pages of root rows

Which root rows a page holds: those with a joined row that all filters keep, in the order of the page, from the offset
on and up to the limit. Both ways of writing the page, with joined rows in groups and with conditions on joined tables
behind an `IN`, come to this.
-/

namespace RelQuery

open Sql

variable {sv : Server} {db : Database} {p : Prepared}

/-- The root rows with a joined row that all filters keep. -/
def Prepared.matching (p : Prepared) (sv : Server) (db : Database) : List Record :=
  distinct ((p.keptRows sv db).map fun row => row .root)

/-- The joined rows of a root row that all filters keep. -/
def Prepared.rowsAt (p : Prepared) (sv : Server) (db : Database) (root : Record) : List Joined :=
  (p.keptRows sv db).filter fun row => row .root = root

/-- What a page sorts a root row by. -/
def Prepared.pageKey (p : Prepared) (sv : Server) (db : Database) (root : Record) : List Value :=
  p.rootKeyOf sv root (p.rowsAt sv db root)

def Prepared.rootDirs (p : Prepared) : List SortDir := p.rootSort.map (·.dir)

/-- The matching root rows in the order of a page. -/
def Prepared.sortRoots (p : Prepared) (sv : Server) (db : Database) : List Record :=
  (p.matching sv db).insertionSort fun a b =>
    (sv.compareKeys p.rootDirs (p.pageKey sv db a) (p.pageKey sv db b)).isLE = true

/-- The root rows of the page that is asked for. -/
def Prepared.pageRoots (p : Prepared) (sv : Server) (db : Database) : List Record :=
  bounded p.request.limit p.request.offset (p.sortRoots sv db)

theorem mem_matching {root : Record} :
    root ∈ p.matching sv db ↔ ∃ row ∈ p.joinedRows sv db, p.keeps sv db row = true ∧ row .root = root := by
  unfold Prepared.matching Prepared.keptRows
  simp only [mem_distinct, List.mem_map, List.mem_filter, and_assoc]

theorem matching_subset (h : p.Named) : p.matching sv db ⊆ db.of p.schema p.request.root := by
  intro root hroot
  obtain ⟨row, hrow, -, rfl⟩ := mem_matching.mp hroot
  exact (fits_of_mem_joinedRows h hrow).root

theorem perm_sortRoots (p : Prepared) (sv : Server) (db : Database) : (p.sortRoots sv db).Perm (p.matching sv db) :=
  List.perm_insertionSort _ _

theorem mem_sortRoots {r : Record} : r ∈ p.sortRoots sv db ↔ r ∈ p.matching sv db :=
  (perm_sortRoots p sv db).mem_iff

theorem nodup_sortRoots (p : Prepared) (sv : Server) (db : Database) : (p.sortRoots sv db).Nodup :=
  (perm_sortRoots p sv db).nodup_iff.mpr (distinct_nodup _)

theorem pageRoots_sublist (p : Prepared) (sv : Server) (db : Database) :
    (p.pageRoots sv db).Sublist (p.sortRoots sv db) := bounded_sublist _ _ _

theorem pairwise_sortRoots (p : Prepared) (sv : Server) (db : Database) :
    (p.sortRoots sv db).Pairwise fun a b =>
      (sv.compareKeys p.rootDirs (p.pageKey sv db a) (p.pageKey sv db b)).isLE = true := by
  let le : Record → Record → Prop := fun a b =>
    (sv.compareKeys p.rootDirs (p.pageKey sv db a) (p.pageKey sv db b)).isLE = true
  have htotal : Std.Total le := ⟨fun a b => Server.compareKeys_total _ _ _⟩
  have htrans : IsTrans Record le := ⟨fun _ _ _ => Server.compareKeys_trans _⟩
  exact (p.matching sv db).pairwise_insertionSort le

theorem eq_of_rootKeyOf (h : p.Named) (hdb : db.Keyed sv p.schema) {a b : Record}
    (ha : a ∈ db.of p.schema p.request.root) (hb : b ∈ db.of p.schema p.request.root) {rows rows' : List Joined}
    (hkeys : sv.compareKeys p.rootDirs (p.rootKeyOf sv a rows) (p.rootKeyOf sv b rows') = .eq) : a = b := by
  obtain ⟨c, hc, hpath, hcolumn⟩ := exists_root_mem_rootSort p
  have hrank := rank_of_compareKeys hkeys c hc
  unfold SortColumn.rootValue at hrank
  rw [hpath, if_pos (Path.isRoot_iff.mpr rfl), if_pos (Path.isRoot_iff.mpr rfl), hcolumn] at hrank
  exact eq_of_rank h.schema hdb h.root (.inl ha) (.inl hb) hrank

theorem compareKeys_rootKeyOf {root : Record} {rows rows' : List Joined} (hperm : rows.Perm rows') :
    sv.compareKeys p.rootDirs (p.rootKeyOf sv root rows) (p.rootKeyOf sv root rows') = .eq := by
  refine compareKeys_of_rank fun c _ => ?_
  unfold SortColumn.rootValue
  split
  · exact Std.ReflCmp.compare_self
  · exact Server.rank_extreme_of_mem_iff fun v => ((hperm.map _).filter _).mem_iff

/-- Root rows that come in the order of a page are sorted, whatever order the keys are computed from. -/
theorem eq_sortRoots (h : p.Named) (hdb : db.Keyed sv p.schema) {sorted : List Record}
    (hperm : sorted.Perm (p.matching sv db)) (key : Record → List Value)
    (hkey : ∀ a ∈ sorted, sv.compareKeys p.rootDirs (key a) (p.pageKey sv db a) = .eq)
    (hsorted : sorted.Pairwise fun a b => (sv.compareKeys p.rootDirs (key a) (key b)).isLE = true) :
    sorted = p.sortRoots sv db := by
  have hsorted' : sorted.Pairwise fun a b =>
      (sv.compareKeys p.rootDirs (p.pageKey sv db a) (p.pageKey sv db b)).isLE = true := by
    refine hsorted.imp_of_mem fun {a b} ha hb hle => ?_
    rwa [← Server.compareKeys_congr (hkey a ha) (hkey b hb)]
  refine List.Perm.eq_of_pairwise (fun a b ha hb hab hba => ?_) hsorted' (pairwise_sortRoots p sv db)
    (hperm.trans (perm_sortRoots p sv db).symm)
  have hb' := mem_sortRoots.mp hb
  exact eq_of_rootKeyOf h hdb (matching_subset h (hperm.mem_iff.mp ha)) (matching_subset h hb')
    (Std.OrientedCmp.isLE_antisymm hab hba)

theorem root_of_mem_joinPaths (h : p.Named) {start row : Joined}
    (hrow : row ∈ joinPaths sv db p.schema p.bound.resolved start) : row .root = start .root := by
  refine joinPaths_of_not_mem hrow fun hmem => ?_
  obtain ⟨r, hr, he⟩ := List.mem_map.mp hmem
  exact h.bound.joined.ne_root r hr he

/-- The joined rows of a root row are those that joining its paths to it gives. -/
theorem mem_joinedRows_at (h : p.Named) {root : Record} {row : Joined} :
    row ∈ p.joinedRows sv db ∧ row .root = root ↔
      root ∈ db.of p.schema p.request.root ∧ row ∈ joinPaths sv db p.schema p.bound.resolved (.start root) := by
  unfold Prepared.joinedRows
  rw [List.mem_flatMap]
  constructor
  · rintro ⟨⟨r, hr, hrow⟩, rfl⟩
    rw [root_of_mem_joinPaths h hrow]
    exact ⟨hr, hrow⟩
  · rintro ⟨hroot, hrow⟩
    exact ⟨⟨root, hroot, hrow⟩, root_of_mem_joinPaths h hrow⟩

/-- What the filters on the root alone say of a root row. -/
def Prepared.rootHolds (p : Prepared) (sv : Server) (db : Database) (root : Record) : Bool :=
  p.bound.filters.all fun f => !f.isRootOnly || f.keeps sv db (.start root)

/-- What the filters on joined rows say of one. -/
def Prepared.rowHolds (p : Prepared) (sv : Server) (db : Database) (row : Joined) : Bool :=
  p.bound.filters.all fun f => f.isRootOnly || f.keeps sv db row

/-- Filters on the root and filters on joined rows together are all filters. -/
theorem keeps_eq (p : Prepared) (sv : Server) (db : Database) (row : Joined) :
    p.keeps sv db row = (p.rootHolds sv db (row .root) && p.rowHolds sv db row) := by
  unfold Prepared.keeps Prepared.rootHolds Prepared.rowHolds
  rw [Bool.eq_iff_iff, Bool.and_eq_true, List.all_eq_true, List.all_eq_true, List.all_eq_true, ← forall₂_and]
  refine forall₂_congr fun f _ => ?_
  by_cases hroot : f.isRootOnly = true
  · rw [keeps_congr hroot (show row .root = Joined.start (row .root) .root from (if_pos rfl).symm), hroot]
    simp
  · rw [Bool.eq_false_iff.mpr hroot]
    simp

/-- A root row matches if the filters on the root hold of it and those on joined rows of one of its joined rows. -/
theorem mem_matching_iff (h : p.Named) {root : Record} (hroot : root ∈ db.of p.schema p.request.root) :
    root ∈ p.matching sv db ↔
      p.rootHolds sv db root = true ∧
        ∃ row ∈ joinPaths sv db p.schema p.bound.resolved (.start root), p.rowHolds sv db row = true := by
  rw [mem_matching]
  constructor
  · rintro ⟨row, hrow, hkeeps, rfl⟩
    rw [keeps_eq, Bool.and_eq_true] at hkeeps
    exact ⟨hkeeps.1, row, ((mem_joinedRows_at h).mp ⟨hrow, rfl⟩).2, hkeeps.2⟩
  · rintro ⟨hholds, row, hrow, hrowHolds⟩
    obtain ⟨hmem, rfl⟩ := (mem_joinedRows_at h).mpr ⟨hroot, hrow⟩
    exact ⟨row, hmem, by rw [keeps_eq, hholds, hrowHolds]; rfl, rfl⟩

theorem all_onRoot (h : p.Named) {predicates : List Predicate} (hp : p.predicates = .ok predicates) (t : Tuple) :
    (((predicates.filter (·.rootOnly)).map (·.expr)).all fun e => truth (e.value sv db [t]) == some true) =
      p.rootHolds sv db (p.rowOf p.bound.resolved t .root) := by
  rw [List.all_map, List.all_filter]
  refine all_eq_of_forall₂ (@keeps_predicates sv db p h _ hp) fun f pred ⟨hrootOnly, htruth⟩ => ?_
  by_cases hroot : f.isRootOnly = true
  · rw [hrootOnly, hroot, Function.comp_apply, htruth,
      keeps_congr hroot (show p.rowOf p.bound.resolved t .root = Joined.start _ .root from (if_pos rfl).symm)]
  · rw [hrootOnly, Bool.eq_false_iff.mpr hroot]
    rfl

theorem all_onJoined (h : p.Named) {predicates : List Predicate} (hp : p.predicates = .ok predicates) (t : Tuple) :
    (((predicates.filter (!·.rootOnly)).map (·.expr)).all fun e => truth (e.value sv db [t]) == some true) =
      p.rowHolds sv db (p.rowOf p.bound.resolved t) := by
  rw [List.all_map, List.all_filter]
  refine all_eq_of_forall₂ (@keeps_predicates sv db p h _ hp) fun f pred ⟨hrootOnly, htruth⟩ => ?_
  rw [hrootOnly, Function.comp_apply, htruth, Bool.not_not]

theorem value_rootKey (h : p.Named) (t : Tuple) (more : List Tuple) :
    p.rootKey.value sv db (t :: more) = p.rootEntity.key (p.rowOf p.bound.resolved t .root) :=
  h.place_root.column_eq h rfl t

theorem isIn_eq_true {v : Value} {values : List Value} : sv.isIn v values = some true ↔ ∃ x ∈ values, sv.equal v x = true := by
  unfold Server.isIn
  induction values with
  | nil => simp
  | cons x rest ih =>
    rw [List.foldr_cons, or3_eq_true, ih, List.exists_mem_cons_iff, Server.equal, beq_iff_eq]

theorem equal_key_iff (h : p.Named) (hdb : db.Keyed sv p.schema) {a b : Record}
    (ha : a ∈ db.of p.schema p.request.root) (hb : b ∈ db.of p.schema p.request.root) :
    sv.equal (p.rootEntity.key a) (p.rootEntity.key b) = true ↔ a = b := by
  rw [Server.equal_iff]
  constructor
  · exact fun ⟨_, _, he⟩ => eq_of_key hdb h.root ha hb he
  · rintro rfl
    exact ⟨hdb.keyed _ h.root a ha, hdb.keyed _ h.root a hb, Std.ReflCmp.compare_self⟩

/-- A key is among those that a query answers if the root row is among those that the query answers the keys of. -/
theorem holds_inQuery (h : p.Named) (hdb : db.Keyed sv p.schema) {inner : Query} {roots : List Record}
    (hroots : roots ⊆ db.of p.schema p.request.root)
    (hvalues : ((inner.answer sv db).map fun r => ((r.head?).map (·.2)).getD .null).Perm (roots.map p.rootEntity.key))
    {t : Tuple} (ht : p.rowOf p.bound.resolved t .root ∈ db.of p.schema p.request.root) :
    (truth ((Expr.inQuery p.rootKey inner false).value sv db [t]) == some true) =
      decide (p.rowOf p.bound.resolved t .root ∈ roots) := by
  rw [Bool.eq_iff_iff, beq_iff_eq, decide_eq_true_iff, Expr.value, truth_ofTruth, value_rootKey h, Server.negatedIf]
  rw [if_neg Bool.false_ne_true, isIn_eq_true]
  constructor
  · rintro ⟨v, hv, hequal⟩
    obtain ⟨root, hroot, rfl⟩ := List.mem_map.mp (hvalues.mem_iff.mp hv)
    rwa [(equal_key_iff h hdb ht (hroots hroot)).mp hequal]
  · intro hmem
    exact ⟨_, hvalues.mem_iff.mpr (List.mem_map_of_mem hmem), (equal_key_iff h hdb ht ht).mpr rfl⟩

theorem nodup_of {s : Schema} (hdb : db.Keyed sv s) {id : EntityId} (hid : id.index < s.entities.length) :
    (db.of s id).Nodup := by
  refine (List.pairwise_map.mp (hdb.unique id hid)).imp fun {r t} hne he => hne ?_
  rw [he]
  exact Std.ReflCmp.compare_self

theorem rowOf_single (r : Record) :
    p.rowOf p.bound.resolved [(p.rootTable, r)] .root = p.rootEntity.record r := by
  rw [rowOf_root, NameMap.get?_cons, if_pos rfl, Option.getD_some]

/-- A query of the root table alone whose condition holds of the matching root rows finds these. -/
theorem perm_matching_of_condition (hnamed : p.Named) (hdb : db.Keyed sv p.schema) {condition : Option Expr}
    (h : ∀ t : Tuple, p.rowOf p.bound.resolved t .root ∈ db.of p.schema p.request.root →
      holdsIn sv db t condition = decide (p.rowOf p.bound.resolved t .root ∈ p.matching sv db)) :
    (((joinAll sv db (tuplesOf sv db (some (.ofTable p.rootTable))) []).filter
      fun t => holdsIn sv db t condition).map fun t => p.rowOf p.bound.resolved t .root).Perm (p.matching sv db) := by
  have htuples : tuplesOf sv db (some (.ofTable p.rootTable)) = (db.rows p.rootTable).map fun r => [(p.rootTable, r)] := by
    change ((db.rows p.rootTable).map fun r => (p.rootTable, r)).map (fun entry => [entry]) = _
    rw [List.map_map]
    rfl
  have hof : (db.rows p.rootTable).map p.rootEntity.record = db.of p.schema p.request.root := rfl
  have hfound : ((((db.rows p.rootTable).map fun r => [(p.rootTable, r)]).filter fun t => holdsIn sv db t condition).map
      fun t => p.rowOf p.bound.resolved t .root) =
      (db.of p.schema p.request.root).filter fun r => decide (r ∈ p.matching sv db) := by
    rw [List.filter_map, List.map_map, ← hof, List.filter_map]
    have hkeep : ((db.rows p.rootTable).filter ((fun t => holdsIn sv db t condition) ∘ fun r => [(p.rootTable, r)])) =
        (db.rows p.rootTable).filter ((fun r => decide (r ∈ p.matching sv db)) ∘ p.rootEntity.record) := by
      refine List.filter_congr fun r hr => ?_
      rw [Function.comp_apply, Function.comp_apply, h _ ?_, rowOf_single]
      rw [rowOf_single, ← hof]
      exact List.mem_map_of_mem hr
    rw [hkeep]
    exact List.map_congr_left fun r _ => rowOf_single r
  rw [joinAll_nil, htuples, hfound]
  refine (List.perm_ext_iff_of_nodup ((nodup_of hdb hnamed.root).filter _) (distinct_nodup _)).mpr fun r => ?_
  rw [List.mem_filter, decide_eq_true_iff]
  exact ⟨fun hr => hr.2, fun hr => ⟨matching_subset hnamed hr, hr⟩⟩

/-- The query behind the `IN` of a page: the keys of root rows with a joined row that its conditions keep. -/
def Prepared.matchingKeys (p : Prepared) (joins : List Join) (predicates : List Predicate) : Query :=
  { Query.empty with
    select := [⟨p.rootKey, none⟩], table := some (.ofTable p.rootTable), joins
    condition := Expr.all? ((predicates.filter (!·.rootOnly)).map (·.expr)) }

theorem values_matchingKeys (h : p.Named) {js : List Join} (hjs : p.joins = .ok js) {predicates : List Predicate}
    (hp : p.predicates = .ok predicates) :
    (((p.matchingKeys js predicates).answer sv db).map fun r => ((r.head?).map (·.2)).getD .null).Perm
      ((((p.joinedRows sv db).filter (p.rowHolds sv db)).map fun row => row .root).map p.rootEntity.key) := by
  obtain ⟨sorted, hperm, -, hanswer⟩ := @answer_plain sv db (p.matchingKeys js predicates) rfl rfl
  have hkept : ((p.matchingKeys js predicates).kept sv db).map (p.rowOf p.bound.resolved) =
      (p.joinedRows sv db).filter (p.rowHolds sv db) := by
    rw [← map_rowOf_rootTable h hjs, List.filter_map]
    unfold Query.kept
    congr 1
    refine List.filter_congr fun t _ => ?_
    rw [Prepared.matchingKeys, holdsIn_all?, all_onJoined h hp, Function.comp_apply]
  rw [hanswer, List.map_map, ← hkept, List.map_map, List.map_map]
  refine (List.Perm.of_eq ?_).trans (hperm.map _)
  exact List.map_congr_left fun t _ => @value_rootKey sv db p h t []

/-- The condition of a page on the root table alone holds of the matching root rows. -/
theorem holdsIn_page (h : p.Named) (hdb : db.Keyed sv p.schema) {js : List Join} (hjs : p.joins = .ok js)
    {predicates : List Predicate} (hp : p.predicates = .ok predicates) {t : Tuple}
    (ht : p.rowOf p.bound.resolved t .root ∈ db.of p.schema p.request.root) :
    holdsIn sv db t
        (Expr.all? ((predicates.filter (·.rootOnly)).map (·.expr) ++
          [.inQuery p.rootKey (p.matchingKeys js predicates) false])) =
      decide (p.rowOf p.bound.resolved t .root ∈ p.matching sv db) := by
  have hsub : ((p.joinedRows sv db).filter (p.rowHolds sv db)).map (fun row => row .root) ⊆
      db.of p.schema p.request.root := by
    intro r hr
    obtain ⟨row, hrow, rfl⟩ := List.mem_map.mp hr
    exact (fits_of_mem_joinedRows h (List.mem_filter.mp hrow).1).root
  rw [holdsIn_all?, List.all_append, all_onRoot h hp, List.all_cons, List.all_nil, Bool.and_true,
    holds_inQuery h hdb hsub (values_matchingKeys h hjs hp) ht, Bool.eq_iff_iff, Bool.and_eq_true, decide_eq_true_iff,
    decide_eq_true_iff, mem_matching_iff h ht]
  refine and_congr_right fun _ => ?_
  rw [List.mem_map]
  constructor
  · rintro ⟨row, hrow, hroot⟩
    obtain ⟨hmem, hholds⟩ := List.mem_filter.mp hrow
    exact ⟨row, ((mem_joinedRows_at h).mp ⟨hmem, hroot⟩).2, hholds⟩
  · rintro ⟨row, hrow, hholds⟩
    obtain ⟨hmem, hroot⟩ := (mem_joinedRows_at h).mpr ⟨ht, hrow⟩
    exact ⟨row, List.mem_filter.mpr ⟨hmem, hholds⟩, hroot⟩

theorem holdsIn_page_rootOnly (h : p.Named) {predicates : List Predicate} (hp : p.predicates = .ok predicates)
    (hnone : ((predicates.filter (!·.rootOnly)).map (·.expr)).isEmpty = true) {t : Tuple}
    (ht : p.rowOf p.bound.resolved t .root ∈ db.of p.schema p.request.root) :
    holdsIn sv db t (Expr.all? ((predicates.filter (·.rootOnly)).map (·.expr))) =
      decide (p.rowOf p.bound.resolved t .root ∈ p.matching sv db) := by
  have hrows : ∀ row : Joined, p.rowHolds sv db row = true := by
    intro row
    have hall := all_eq_of_forall₂ (@keeps_predicates sv db p h _ hp) (f := fun f => f.isRootOnly)
      (g := fun pred => pred.rootOnly) fun _ _ hpred => hpred.1
    have hpreds : predicates.all (·.rootOnly) = true := by
      rw [List.isEmpty_iff, List.map_eq_nil_iff, List.filter_eq_nil_iff] at hnone
      exact List.all_eq_true.mpr fun pred hpred => by simpa using hnone pred hpred
    rw [hpreds] at hall
    refine List.all_eq_true.mpr fun f hf => ?_
    rw [List.all_eq_true.mp hall.symm f hf, Bool.true_or]
  rw [holdsIn_all?, all_onRoot h hp, Bool.eq_iff_iff, decide_eq_true_iff, mem_matching_iff h ht]
  obtain ⟨row, hrow⟩ := List.exists_mem_of_ne_nil _
    (joinPaths_ne_nil sv db p.schema p.bound.resolved (.start (p.rowOf p.bound.resolved t .root)))
  exact ⟨fun hholds => ⟨hholds, row, hrow, hrows row⟩, fun hboth => hboth.1⟩

end RelQuery
