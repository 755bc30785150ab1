import RelQuery.Proofs.Engine.Slice
import RelQuery.Proofs.Plan.Wider

/-!
# Loading along more relations

A request that loads along more relations is written as another statement: it has more joins, and with bounds it becomes
a page where it may have been none. The root instances that come back are the same, in the same order and with the same
fields. This holds whatever else is in the database: rows may lack values that their entity needs, as long as both
statements can be read.
-/

namespace RelQuery

open Sql

variable {sv : Server} {db : Database} {s : Schema} {p p' : Prepared}

theorem mem_of_firstBefore (h : p.Named) {a b : Record} (hab : p.FirstBefore sv db a b) :
    a ∈ db.of p.schema p.request.root := by
  obtain ⟨x, hx, rfl, -⟩ := hab
  exact (fits_of_mem_keptRows h hx).root

theorem eq_of_firstBefore (h : p.Named) (hdb : db.Keyed sv p.schema) {a b : Record} (hab : p.FirstBefore sv db a b)
    (hba : p.FirstBefore sv db b a) : a = b := by
  have ha := mem_of_firstBefore h hab
  have hb := mem_of_firstBefore h hba
  obtain ⟨x, hx, rfl, hxy⟩ := hab
  obtain ⟨y, hy, rfl, hyx⟩ := hba
  have hkeys := Std.OrientedCmp.isLE_antisymm (hxy y hy rfl) (hyx x hx rfl)
  obtain ⟨c, hc, hpath, hcolumn⟩ := exists_root_mem_rootSort p
  have hrank := rank_of_compareKeys hkeys c hc
  rw [hpath, hcolumn] at hrank
  exact eq_of_rank h.schema hdb h.root (.inl ha) (.inl hb) hrank

namespace Prepared.Wider

theorem sortKey_eq (h : p.Named) {row row' : Joined} (hagree : AgreeAt p.bound.resolved row row') :
    row'.sortKey p.rootSort = row.sortKey p.rootSort :=
  List.map_congr_left fun _ hc => value_eq h hagree hc

/-- What first comes before in the wider request does so in the narrower one. -/
theorem firstBefore (hw : p.Wider p') (h : p.Named) (h' : p'.Named) {a b : Record} (hab : p'.FirstBefore sv db a b) :
    p.FirstBefore sv db a b := by
  obtain ⟨x', hx', rfl, hle⟩ := hab
  obtain ⟨x, hx, hagree⟩ := hw.exists_kept_narrower h h' hx'
  refine ⟨x, hx, (hagree .root (.inl rfl)).symm, fun y hy hyb => ?_⟩
  obtain ⟨y', hy', hagree'⟩ := hw.exists_kept h h' hy
  have hfirst := hle y' hy' ((hagree' .root (.inl rfl)).trans hyb)
  rwa [Prepared.rootDirs, hw.rootSort, sortKey_eq h hagree, sortKey_eq h hagree'] at hfirst

theorem rootsInOrder (hw : p.Wider p') (h : p.Named) (h' : p'.Named) (hdb : db.Keyed sv p.schema) :
    p'.rootsInOrder sv db = p.rootsInOrder sv db := by
  refine List.Perm.eq_of_pairwise (fun a b _ _ hab hba => eq_of_firstBefore h hdb hab hba)
    ((pairwise_firstBefore p' sv db).imp (hw.firstBefore h h')) (pairwise_firstBefore p sv db) ?_
  exact (perm_rootsInOrder p' sv db).trans ((hw.perm_matching h h').trans (perm_rootsInOrder p sv db).symm)

end Prepared.Wider

/-- Statements that do not bound joined rows show all joined rows of the root rows on the page. -/
theorem shows_pageRoots (h : p.Named) (hdb : db.Keyed sv p.schema) (hraw : p.request.limitRawSql = false)
    {settings : Settings} {planned : PlannedQuery} (hplan : p.plan settings = .ok planned) :
    p.Shows sv db planned.query planned.tree
      ((p.sortRows sv (p.keptRows sv db)).filter fun row => row .root ∈ p.pageRoots sv db) := by
  cases hpage : p.paginatesRoot with
  | true => exact shows_page h hdb hplan hpage
  | false =>
    have hshows := shows_plain h hdb hplan hpage
    by_cases hresolved : p.bound.resolved = []
    · -- the bounds of the statement are those of the page, as every row is a root row
      have horders : ∀ o ∈ p.bound.orders, o.path.isRoot = true := by
        intro o ho
        by_contra hne
        obtain ⟨t, ht, -⟩ := h.bound.joined_of_order ho fun he => hne (Path.isRoot_iff.mpr he)
        rw [hresolved] at ht
        cases ht
      rwa [filter_sortRows_unjoined h hdb hresolved
        (rootsInOrder_eq_sortRoots h hdb (aligned_of_root_orders horders))]
    · -- with joined rows there is no page only where there are no bounds
      have hnone : p.request.limit = none ∧ p.request.offset = none := by
        have hjoined : p.bound.resolved.isEmpty = false :=
          Bool.eq_false_iff.mpr fun he => hresolved (List.isEmpty_iff.mp he)
        rw [Prepared.paginatesRoot, hjoined, hraw] at hpage
        simpa [Request.isPaginated] using hpage
      rw [hnone.1, hnone.2, bounded_none] at hshows
      rwa [List.filter_eq_self.mpr fun row hrow => decide_eq_true ?_]
      rw [Prepared.pageRoots, hnone.1, hnone.2, bounded_none, mem_sortRoots, Prepared.matching,
        mem_distinct]
      exact List.mem_map_of_mem (mem_sortRows.mp hrow)

/-- Merging instances with the fields of root rows gives one for each root row, with its fields. -/
theorem fields_merge_roots (h : p.Named) (hdb : db.Keyed sv p.schema) {columns : List SelectedColumn}
    (hpk : columns.any (·.field == p.rootEntity.pk) = true) {roots : List Record}
    (hof : roots ⊆ db.of p.schema p.request.root) {found : List Instance}
    (hfound : found.map (fun i => (i.entity, i.fields)) =
      roots.map fun root => (p.request.root, p.rootEntity.fieldsOf columns root)) :
    (merge p.schema found).map (fun i => (i.entity, i.fields)) =
      (distinct roots).map fun root => (p.request.root, p.rootEntity.fieldsOf columns root) := by
  -- the key of an instance is in its fields
  have hkey : ∀ i : Instance, ∀ root, (p.request.root, p.rootEntity.fieldsOf columns root) = (i.entity, i.fields) →
      i.key p.schema = p.instanceKey root := by
    intro i root he
    have hread : (instanceOf p.schema p.request.root columns root).key p.schema = p.instanceKey root :=
      congrArg (Prod.mk p.request.root) (pk_instanceOf (h.schema.hasField_pk h.root) hpk root)
    rw [← hread]
    exact (congrArg (fun e => (Instance.ofFields e.1 e.2).key p.schema) he).symm
  have hroot : ∀ i ∈ found, ∃ root ∈ roots,
      (p.request.root, p.rootEntity.fieldsOf columns root) = (i.entity, i.fields) := by
    intro i hi
    have hmem := List.mem_map_of_mem (f := fun i : Instance => (i.entity, i.fields)) hi
    rw [hfound] at hmem
    exact List.mem_map.mp hmem
  rw [map_fields_merge (fun i hi => ?_) fun i hi j hj he => ?_, hfound, distinct_map_of_injective]
  · intro a ha b hb he
    refine instanceKey_injective h hdb (hof ha) (hof hb) ?_
    rw [← hkey (instanceOf p.schema p.request.root columns a) a rfl,
      ← hkey (instanceOf p.schema p.request.root columns a) b he.symm]
  · obtain ⟨root, -, he⟩ := hroot i hi
    rw [← (Prod.mk.inj he).2]
    exact NameMap.ordered_ofPairs _
  · obtain ⟨a, ha, hfieldsA⟩ := hroot i hi
    obtain ⟨b, hb, hfieldsB⟩ := hroot j hj
    rw [hkey i a hfieldsA, hkey j b hfieldsB] at he
    rw [← (Prod.mk.inj hfieldsA).2, ← (Prod.mk.inj hfieldsB).2, instanceKey_injective h hdb (hof ha) (hof hb) he]

/-- What is fetched, if it can be read, has the fields of the root rows on the page, in the order in which the statement
for all pages first shows them. -/
theorem fields_fetched {r : Request} {registry : AliasRegistry} (h : Answerable s r registry p)
    (hdb : db.Keyed sv p.schema) (hraw : r.limitRawSql = false) {settings : Settings} {found : List Instance}
    (hfound : (db.engine sv s settings).fetched r registry = .ok found) :
    found.map (fun i => (i.entity, i.fields)) =
      ((p.rootsInOrder sv db).filter fun root => root ∈ p.pageRoots sv db).map fun root =>
        (p.request.root, p.rootEntity.fieldsOf (selectColumns p.rootEntity p.bound.projection none) root) := by
  obtain ⟨planned, registry', hrequest, hplan, hlabels⟩ := h.exists_plan settings
  obtain ⟨_, _, _, htree, -⟩ := plan_eq_ok hplan
  have hcolumns : planned.tree.columns = selectColumns p.rootEntity p.bound.projection none :=
    (planned_of_tree h.from_ htree).2.1
  have hpk := h.selects_key htree
  rw [fetched_eq hrequest, ← h.schema_eq] at hfound
  obtain ⟨sliced, hsliced, rfl⟩ := map_eq_ok.mp (NoResult.lift_eq_ok.mp hfound)
  have hraw' : p.request.limitRawSql = false := by rw [h.request_eq, hraw]
  rw [select_of_plan hplan] at hlabels
  let rows := (p.sortRows sv (p.keptRows sv db)).filter fun row => row .root ∈ p.pageRoots sv db
  have hof : ∀ row ∈ rows, row .root ∈ db.of p.schema p.request.root := fun row hrow =>
    (fits_of_mem_keptRows h.named (mem_sortRows.mp (List.mem_filter.mp hrow).1)).root
  have hfields := fields_of_shows h.named hdb h.from_ htree hlabels hpk
    (shows_pageRoots h.named hdb hraw' hplan) hof hsliced
  have hroots : distinct (rows.map fun row => row .root) =
      (p.rootsInOrder sv db).filter fun root => root ∈ p.pageRoots sv db := by
    rw [Prepared.rootsInOrder, ← distinct_filter, List.filter_map]
    rfl
  rw [← hroots, ← hcolumns]
  refine fields_merge_roots h.named hdb hpk (List.forall_mem_map.mpr hof) (hfields.trans ?_)
  rw [List.map_map]
  rfl

/-- Loading along more relations changes no root instance: where both requests are planned and read, the same come
back, in the same order and with the same fields, whatever the filters, orderings and bounds, under all settings and
aliases. -/
theorem roots_withRelated {entities : List EntityDecl} {relations : List RelationDecl}
    (hs : Schema.build entities relations = .ok s) {r : Request} (hroot : r.root.index < s.entities.length)
    (hprojection : r.projection = .empty) (hraw : r.limitRawSql = false) {related : List Path}
    (hrelated : r.selectRelated ⊆ related) {registry registry' other other' : AliasRegistry}
    {settings settings' : Settings} {planned planned' : PlannedQuery}
    (hplan : r.plan s settings registry = (.ok planned, registry'))
    (hplan' : (r.withRelated related).plan s settings' other = (.ok planned', other'))
    (hlabels : (planned.query.select.map (·.label)).Nodup) (hlabels' : (planned'.query.select.map (·.label)).Nodup)
    (hnames : (planned.query.tables.map (·.name?)).Nodup) (hnames' : (planned'.query.tables.map (·.name?)).Nodup)
    (sv : Server) {db : Database} (hdb : db.Keyed sv s) {found found' : List Instance}
    (hfound : (db.engine sv s settings).fetched r registry = .ok found)
    (hfound' : (db.engine sv s settings').fetched (r.withRelated related) other = .ok found') :
    found.map (fun i => (i.key s, i.fields)) = found'.map fun i => (i.key s, i.fields) := by
  have hwell := wellFormed_build hs
  obtain ⟨p, hp, -, h, -⟩ := answerable_of_plan hwell hroot hprojection hplan hlabels hnames
  obtain ⟨p', hp', -, h', -⟩ := answerable_of_plan hwell (r := r.withRelated related) hroot hprojection hplan' hlabels' hnames'
  obtain ⟨hw, hsame⟩ := wider_of_prepare hrelated hp hp'
  have hschema := h.schema_eq
  subst hschema
  have hentity : p'.rootEntity = p.rootEntity := by
    unfold Prepared.rootEntity
    rw [hw.schema, hw.root]
  have hfields := fields_fetched h hdb hraw hfound
  have hfields' := fields_fetched h' (hw.schema ▸ hdb) hraw hfound'
  rw [hw.rootsInOrder h.named h'.named hdb, hw.pageRoots h.named h'.named hdb, hw.root, hentity, hsame, ← hfields]
    at hfields'
  -- the key of an instance is in its fields
  have hkeys := congrArg (List.map fun e => ((Instance.ofFields e.1 e.2).key p.schema, e.2)) hfields'
  rw [List.map_map, List.map_map] at hkeys
  exact hkeys.symm

/-- The first two books by title. -/
def titledRequest : Request := { root := ⟨0⟩, orderBy := [⟨["title"], false⟩], limit := some 2 }

/-- Alone they are the first rows of a table; with their tags they are a page, and one of them has two joined rows. -/
theorem roots_withRelated_tagged :
    Schema.build taggedEntities taggedRelations = .ok taggedSchema ∧
      titledRequest.root.index < taggedSchema.entities.length ∧ titledRequest.projection = .empty ∧
      titledRequest.limitRawSql = false ∧ titledRequest.selectRelated ⊆ [⟨["tags"]⟩] ∧
      ∃ planned planned' registry registry',
        titledRequest.plan taggedSchema {} taggedRegistry = (.ok planned, registry) ∧
        (titledRequest.withRelated [⟨["tags"]⟩]).plan taggedSchema {} taggedRegistry = (.ok planned', registry') ∧
        (planned.query.select.map (·.label)).Nodup ∧ (planned'.query.select.map (·.label)).Nodup ∧
        (planned.query.tables.map (·.name?)).Nodup ∧ (planned'.query.tables.map (·.name?)).Nodup ∧
        taggedDatabase.Keyed .plain taggedSchema ∧
        ∃ found found' : List Instance,
          (taggedDatabase.engine .plain taggedSchema {}).fetched titledRequest taggedRegistry = .ok found ∧
          (taggedDatabase.engine .plain taggedSchema {}).fetched (titledRequest.withRelated [⟨["tags"]⟩])
            taggedRegistry = .ok found' ∧
          found.map (fun i => (i.key taggedSchema, i.fields)) = found'.map (fun i => (i.key taggedSchema, i.fields)) ∧
          found.map (·.key taggedSchema) = [(⟨0⟩, .int 3), (⟨0⟩, .int 2)] := by
  have hbuild : Schema.build taggedEntities taggedRelations = .ok taggedSchema := by rfl
  have hroot : titledRequest.root.index < taggedSchema.entities.length := by decide
  obtain ⟨planned, hpair, hlabels, hnames⟩ := @exists_plan_of_names taggedSchema titledRequest {} taggedRegistry
    [some "id", some "title"] [some "books"] (by rfl) (by decide) (by decide)
  obtain ⟨planned', hpair', hlabels', hnames'⟩ := @exists_plan_of_names taggedSchema
    (titledRequest.withRelated [⟨["tags"]⟩]) {} taggedRegistry
    [some "id", some "title", some "b00c5a_id", some "b00c5a_name"] [some "books", some "5c1a2e", some "b00c5a"]
    (by rfl) (by decide) (by decide)
  have hkeys : ((taggedDatabase.engine .plain taggedSchema {}).fetched titledRequest taggedRegistry).map
      (fun found => found.map (·.key taggedSchema)) = .ok [(⟨0⟩, .int 3), (⟨0⟩, .int 2)] := by decide +kernel
  have hread : ((taggedDatabase.engine .plain taggedSchema {}).fetched (titledRequest.withRelated [⟨["tags"]⟩])
      taggedRegistry).map List.length = .ok 2 := by decide +kernel
  obtain ⟨found, hfound, hkeys⟩ := map_eq_ok.mp hkeys
  obtain ⟨found', hfound', -⟩ := map_eq_ok.mp hread
  have hsame := roots_withRelated hbuild hroot rfl rfl (List.nil_subset [⟨["tags"]⟩]) hpair hpair' hlabels hlabels'
    hnames hnames' .plain sound_taggedDatabase.keys hfound hfound'
  exact ⟨hbuild, hroot, rfl, rfl, List.nil_subset _, planned, planned', _, _, hpair, hpair', hlabels, hlabels', hnames,
    hnames', sound_taggedDatabase.keys, found, found', hfound, hfound', hsame, hkeys⟩

end RelQuery
