import RelQuery.Proofs.Engine.Fetch

/-!
# Pages of instances

For a request that joins tables, a page holds as many root instances as its bounds allow of those that the request has
without bounds, each just as it is there, whichever way pages are written.
-/

namespace RelQuery

open Sql

variable {sv : Server} {db : Database} {s : Schema} {p : Prepared}

/-- How many of a number of things bounds leave. -/
def pageSize (limit offset : Option UInt64) (n : Nat) : Nat :=
  let rest := n - (offset.map (·.toNat)).getD 0
  match limit with
  | some k => min k.toNat rest
  | none => rest

theorem length_bounded {α : Type} (limit offset : Option UInt64) (l : List α) :
    (bounded limit offset l).length = pageSize limit offset l.length := by
  unfold bounded pageSize
  cases limit with
  | none => exact List.length_drop
  | some k =>
    dsimp only
    rw [List.length_take, List.length_drop]

/-- A prepared request whose statements can be answered: its tables go by different names, and the labels of a plan of
it are different. -/
structure Answerable (s : Schema) (r : Request) (registry : AliasRegistry) (p : Prepared) : Prop where
  schema : s.WellFormed
  root : r.root.index < s.entities.length
  projection : r.projection.KeepsKey s r.root
  prepared : ∃ registry', r.prepare s registry = (.ok p, registry')
  differ : p.PathsDiffer
  planned : ∃ settings planned, p.plan settings = .ok planned ∧ (planned.query.select.map (·.label)).Nodup

namespace Answerable

variable {r : Request} {registry : AliasRegistry}

theorem withBounds (h : Answerable s r registry p) (limit offset : Option UInt64) :
    Answerable s (r.withBounds limit offset) registry (p.withBounds limit offset) := by
  obtain ⟨registry', hprepared⟩ := h.prepared
  obtain ⟨settings, planned, hplan, hlabels⟩ := h.planned
  obtain ⟨planned', hplan', -, hselect⟩ := plan_withBounds hplan settings limit offset
  exact ⟨h.schema, h.root, h.projection, ⟨registry', prepare_withBounds hprepared limit offset⟩, h.differ,
    settings, planned', hplan', hselect ▸ hlabels⟩

theorem named (h : Answerable s r registry p) : p.Named := by
  obtain ⟨registry', hprepared⟩ := h.prepared
  exact named_of_prepare h.schema h.root hprepared h.differ

theorem from_ (h : Answerable s r registry p) : PreparedFrom p.schema registry p.request p := by
  obtain ⟨registry', hprepared⟩ := h.prepared
  have hfrom := preparedFrom_of_prepare hprepared
  rwa [← hfrom.schema, ← hfrom.request] at hfrom

theorem schema_eq (h : Answerable s r registry p) : p.schema = s := by
  obtain ⟨registry', hprepared⟩ := h.prepared
  exact (preparedFrom_of_prepare hprepared).schema

theorem request_eq (h : Answerable s r registry p) : p.request = r := by
  obtain ⟨registry', hprepared⟩ := h.prepared
  exact (preparedFrom_of_prepare hprepared).request

theorem selects_key (h : Answerable s r registry p) {tree : JoinTree} (ht : p.tree = .ok tree) :
    tree.columns.any (·.field == p.rootEntity.pk) = true := by
  obtain ⟨registry', hprepared⟩ := h.prepared
  obtain ⟨-, hcolumns, -, -⟩ := planned_of_tree (preparedFrom_of_prepare hprepared) ht
  have hincluded := isIncluded_pk_of_prepare h.projection hprepared
  obtain ⟨c, hc, hname⟩ := List.mem_map.mp (hasField_iff.mp (h.schema.hasField_pk h.root))
  have hroot : p.rootEntity = s.entity r.root := by
    rw [Prepared.rootEntity, h.schema_eq, h.request_eq]
  rw [hroot, hcolumns, ← hname]
  exact any_field_selectColumns hc (hname ▸ hincluded)

/-- Under any settings the request is planned, with the same tree and different labels. -/
theorem exists_plan (h : Answerable s r registry p) (settings : Settings) :
    ∃ planned registry', r.plan s settings registry = (.ok planned, registry') ∧ p.plan settings = .ok planned ∧
      (planned.query.select.map (·.label)).Nodup := by
  obtain ⟨registry', hprepared⟩ := h.prepared
  obtain ⟨_, planned, hplan, hlabels⟩ := h.planned
  obtain ⟨planned', hplan', -, hselect⟩ := plan_withBounds hplan settings p.request.limit p.request.offset
  exact ⟨planned', registry', planRequest_eq_ok.mpr ⟨p, hprepared, hplan'⟩, hplan', hselect ▸ hlabels⟩

end Answerable

variable {r : Request} {registry : AliasRegistry}

theorem matching_subset_of (h : p.Named) : (p.pageRoots sv db) ⊆ db.of p.schema p.request.root := fun _ hr =>
  matching_subset h (pageRoots_subset_matching p sv db hr)

/-- All instances are those of the root rows in any order of a page. -/
theorem filter_allInstances_eq_self (h : Answerable s r registry p) (hdb : db.Sound sv p.schema) {tree : JoinTree}
    (ht : p.tree = .ok tree) {roots : List Record} (hroots : p.matching sv db ⊆ roots) :
    ((p.allInstances sv db tree).filter fun i => i.key p.schema ∈ roots.map p.instanceKey) =
      p.allInstances sv db tree := by
  refine List.filter_eq_self.mpr fun i hi => decide_eq_true ?_
  have hkey := List.mem_map_of_mem (f := fun i => Instance.key p.schema i) hi
  rw [map_key_allInstances h.named hdb h.from_ ht (h.selects_key ht)] at hkey
  obtain ⟨root, hroot, he⟩ := List.mem_map.mp hkey
  rw [← he]
  exact List.mem_map_of_mem (hroots ((perm_rootsInOrder p sv db).mem_iff.mp hroot))

theorem nodup_key_allInstances (h : Answerable s r registry p) (hdb : db.Sound sv p.schema) {tree : JoinTree}
    (ht : p.tree = .ok tree) : ((p.allInstances sv db tree).map (·.key p.schema)).Nodup := by
  rw [map_key_allInstances h.named hdb h.from_ ht (h.selects_key ht)]
  refine List.Nodup.map_on (fun a ha b hb => ?_) (distinct_nodup _)
  exact instanceKey_injective h.named hdb.keys (matching_subset h.named ((perm_rootsInOrder p sv db).mem_iff.mp ha))
    (matching_subset h.named ((perm_rootsInOrder p sv db).mem_iff.mp hb))

theorem fetched_unbounded (h : Answerable s r registry p) (hdb : db.Sound sv p.schema) (hbounds : r.isPaginated = false)
    {tree : JoinTree} (ht : p.tree = .ok tree) (settings : Settings) :
    (db.engine sv s settings).fetched r registry = .ok (p.allInstances sv db tree) := by
  obtain ⟨planned, registry', hrequest, hplan, hlabels⟩ := h.exists_plan settings
  obtain ⟨_, _, _, htree, -⟩ := plan_eq_ok hplan
  cases htree.symm.trans ht
  have hnone : r.limit = none ∧ r.offset = none := by
    unfold Request.isPaginated at hbounds
    simpa using hbounds
  have hpage : p.paginatesRoot = false := by
    rw [Prepared.paginatesRoot, h.request_eq, hbounds]
    rfl
  have hshows := shows_plain h.named hdb.keys hplan hpage
  rw [h.request_eq, hnone.1, hnone.2, bounded_none] at hshows
  rw [fetched_eq hrequest, ← h.schema_eq,
    ofRows_plan h.named hdb h.from_ hplan hlabels (h.selects_key htree) hshows (List.Subset.refl _)]
  rfl

/-- For a request that joins tables, engines fetch the instances of the root rows on the page. -/
theorem fetched_joined (h : Answerable s r registry p) (hdb : db.Sound sv p.schema) (hraw : r.limitRawSql = false)
    (hjoined : p.bound.resolved ≠ []) {tree : JoinTree} (ht : p.tree = .ok tree) (settings : Settings) :
    (db.engine sv s settings).fetched r registry =
      .ok ((p.allInstances sv db tree).filter fun i => i.key p.schema ∈ (p.pageRoots sv db).map p.instanceKey) := by
  by_cases hbounds : r.isPaginated = true
  · obtain ⟨planned, registry', hrequest, hplan, hlabels⟩ := h.exists_plan settings
    obtain ⟨_, _, _, htree, -⟩ := plan_eq_ok hplan
    cases htree.symm.trans ht
    have hresolved : p.bound.resolved.isEmpty = false := Bool.eq_false_iff.mpr fun he => hjoined (List.isEmpty_iff.mp he)
    have hpage : p.paginatesRoot = true := by
      rw [Prepared.paginatesRoot, h.request_eq, hraw, hresolved, hbounds]
      rfl
    have hpk := h.selects_key htree
    rw [fetched_eq hrequest, ← h.schema_eq, ofRows_plan h.named hdb h.from_ hplan hlabels hpk
      (shows_page h.named hdb.keys hplan hpage) List.filter_sublist.subset]
    exact congrArg Except.ok (merge_rows_of_roots h.named hdb h.from_ htree hpk (matching_subset_of h.named))
  · have hbounds := Bool.eq_false_iff.mpr hbounds
    have hnone : r.limit = none ∧ r.offset = none := by
      unfold Request.isPaginated at hbounds
      simpa using hbounds
    have hall : p.pageRoots sv db = p.sortRoots sv db := by
      rw [Prepared.pageRoots, h.request_eq, hnone.1, hnone.2, bounded_none]
    rw [fetched_unbounded h hdb hbounds ht settings, hall,
      filter_allInstances_eq_self h hdb ht fun root hroot => mem_sortRoots.mpr hroot]

theorem length_page (h : Answerable s r registry p) (hdb : db.Sound sv p.schema) {tree : JoinTree}
    (ht : p.tree = .ok tree) :
    ((p.allInstances sv db tree).filter fun i => i.key p.schema ∈ (p.pageRoots sv db).map p.instanceKey).length =
      pageSize r.limit r.offset (p.allInstances sv db tree).length := by
  have hkeys := map_key_allInstances h.named hdb h.from_ ht (h.selects_key ht)
  have hall : (p.allInstances sv db tree).length = (p.sortRoots sv db).length := by
    rw [← List.length_map (fun i => Instance.key p.schema i), hkeys, List.length_map,
      (perm_rootsInOrder p sv db).length_eq, (perm_sortRoots p sv db).length_eq]
  have hpage : ((p.allInstances sv db tree).filter
      fun i => i.key p.schema ∈ (p.pageRoots sv db).map p.instanceKey).map (·.key p.schema) =
      ((p.rootsInOrder sv db).filter fun root => root ∈ p.pageRoots sv db).map p.instanceKey := by
    have hfilter := congrArg (List.filter fun k => decide (k ∈ (p.pageRoots sv db).map p.instanceKey)) hkeys
    rw [List.filter_map, List.filter_map] at hfilter
    refine hfilter.trans (congrArg _ (List.filter_congr fun root hroot => ?_))
    have hmem := matching_subset h.named ((perm_rootsInOrder p sv db).mem_iff.mp hroot)
    rw [Function.comp_apply, decide_eq_decide]
    constructor
    · intro hin
      obtain ⟨other, hother, hkey⟩ := List.mem_map.mp hin
      rwa [← instanceKey_injective h.named hdb.keys (matching_subset_of h.named hother) hmem hkey]
    · exact fun hin => List.mem_map_of_mem hin
  have hroots : ((p.rootsInOrder sv db).filter fun root => root ∈ p.pageRoots sv db).Perm (p.pageRoots sv db) := by
    refine (List.perm_ext_iff_of_nodup ((distinct_nodup _).filter _)
      ((nodup_sortRoots p sv db).sublist (pageRoots_sublist p sv db))).mpr fun root => ?_
    rw [List.mem_filter, decide_eq_true_iff]
    exact ⟨fun hin => hin.2, fun hin =>
      ⟨(perm_rootsInOrder p sv db).mem_iff.mpr (pageRoots_subset_matching p sv db hin), hin⟩⟩
  rw [← List.length_map (fun i => Instance.key p.schema i), hpage, List.length_map, hroots.length_eq, hall,
    Prepared.pageRoots, length_bounded, h.request_eq]

theorem joins_of_query {settings : Settings} {tree : JoinTree} {joins : List Join} {predicates : List Predicate}
    {orderBy : List OrderItem} {query : Query} (h : p.query settings tree joins predicates orderBy = .ok query) :
    query.joins = joins := by
  obtain ⟨-, rfl⟩ | ⟨-, page, -, rfl⟩ | ⟨-, page, -, rfl⟩ := query_cases h <;> rfl

/-- A request can be answered if its plan names no two tables and no two values alike. -/
theorem answerable_of_plan (hs : s.WellFormed) {r : Request} (hroot : r.root.index < s.entities.length)
    (hprojection : r.projection = .empty) {registry registry' : AliasRegistry} {settings : Settings}
    {planned : PlannedQuery} (hplan : r.plan s settings registry = (.ok planned, registry'))
    (hlabels : (planned.query.select.map (·.label)).Nodup) (hnames : (planned.query.tables.map (·.name?)).Nodup) :
    ∃ p, r.prepare s registry = (.ok p, registry') ∧ p.plan settings = .ok planned ∧ Answerable s r registry p ∧
      p.joins = .ok planned.query.joins := by
  obtain ⟨p, hp, hok⟩ := planRequest_eq_ok.mp hplan
  obtain ⟨joins, predicates, orderBy, -, hjoins, -, -, hquery⟩ := plan_eq_ok hok
  have hsame := joins_of_query hquery
  have hfrom := preparedFrom_of_prepare hp
  have hjoined : JoinedPaths s p.request.root p.bound.resolved := hfrom.request ▸ hfrom.bound.joined
  have hdiffer : p.PathsDiffer := by
    unfold Query.tables at hnames
    rw [List.map_append, List.map_map, hsame] at hnames
    exact pathsDiffer_of_names (hfrom.schema ▸ hjoined) hjoins hnames.of_append_right
  have hanswerable : Answerable s r registry p :=
    ⟨hs, hroot, hprojection ▸ Projection.keepsKey_empty, ⟨_, hp⟩, hdiffer, settings, planned, hok, hlabels⟩
  exact ⟨p, hp, hok, hanswerable, hsame ▸ hjoins⟩

/-- The names of a plan can be checked by planning. -/
theorem exists_plan_of_names {r : Request} {settings : Settings} {registry : AliasRegistry}
    {labels names : List (Option String)}
    (h : (r.plan s settings registry).1.map (fun planned =>
      (planned.query.select.map (·.label), planned.query.tables.map (·.name?))) = .ok (labels, names))
    (hlabels : labels.Nodup) (hnames : names.Nodup) :
    ∃ planned, r.plan s settings registry = (.ok planned, (r.plan s settings registry).2) ∧
      (planned.query.select.map (·.label)).Nodup ∧ (planned.query.tables.map (·.name?)).Nodup := by
  obtain ⟨planned, hok, hshape⟩ := map_eq_ok.mp h
  obtain ⟨rfl, rfl⟩ := Prod.mk.inj hshape
  exact ⟨planned, Prod.ext hok rfl, hlabels, hnames⟩

/-- For a request that joins tables, a page holds as many of the instances that the request has without bounds as its
bounds allow, each just as it is there, under all settings. The instances without bounds are one for each root row with
a joined row that the filters keep. -/
theorem fetched_page {entities : List EntityDecl} {relations : List RelationDecl}
    (hs : Schema.build entities relations = .ok s) {r : Request} (hroot : r.root.index < s.entities.length)
    (hprojection : r.projection = .empty) (hraw : r.limitRawSql = false) {registry registry' : AliasRegistry}
    {settings : Settings} {planned : PlannedQuery} (hplan : r.plan s settings registry = (.ok planned, registry'))
    (hlabels : (planned.query.select.map (·.label)).Nodup) (hnames : (planned.query.tables.map (·.name?)).Nodup)
    (hjoined : planned.query.joins ≠ []) (sv : Server) {db : Database} (hdb : db.Sound sv s) :
    ∃ (p : Prepared) (all page : List Instance),
      r.prepare s registry = (.ok p, registry') ∧
      (db.engine sv s settings).fetched (r.withBounds none none) registry = .ok all ∧
      (all.map (·.key s)).Perm ((p.matching sv db).map p.instanceKey) ∧ (all.map (·.key s)).Nodup ∧
      (∀ settings', (db.engine sv s settings').fetched r registry = .ok page) ∧
      page.Sublist all ∧ page.length = pageSize r.limit r.offset all.length := by
  obtain ⟨p, hp, hok, h, hjs⟩ := answerable_of_plan (wellFormed_build hs) hroot hprojection hplan hlabels hnames
  obtain ⟨_, _, _, htree, -⟩ := plan_eq_ok hok
  have hresolved : p.bound.resolved ≠ [] := by
    intro hnone
    rw [Prepared.joins, hnone] at hjs
    exact hjoined (Except.ok.inj hjs).symm
  have hschema := h.schema_eq
  subst hschema
  have hall := fetched_joined (h.withBounds none none) hdb hraw hresolved htree settings
  have heverything : ((p.allInstances sv db planned.tree).filter fun i =>
      i.key p.schema ∈ ((p.withBounds none none).pageRoots sv db).map p.instanceKey) = p.allInstances sv db planned.tree :=
    filter_allInstances_eq_self h hdb htree fun root hroot => mem_sortRoots.mpr hroot
  have hkeys := map_key_allInstances h.named hdb h.from_ htree (h.selects_key htree)
  refine ⟨p, p.allInstances sv db planned.tree, _, hp, hall.trans (congrArg Except.ok heverything), ?_, ?_,
    fun settings' => fetched_joined h hdb hraw hresolved htree settings', List.filter_sublist, length_page h hdb htree⟩
  · rw [hkeys]
    exact (perm_rootsInOrder p sv db).map _
  · exact nodup_key_allInstances h hdb htree

/-- Three books with tags, one of them with two. -/
def taggedDatabase : Database where
  rows
    | "books" =>
      [[("id", .int 1), ("title", .text "c")], [("id", .int 2), ("title", .text "b")],
       [("id", .int 3), ("title", .text "a")]]
    | "tags" => [[("id", .int 1), ("label", .text "new")], [("id", .int 2), ("label", .text "new")]]
    | "book_tags" =>
      [[("id", .int 1), ("book_id", .int 1), ("tag_id", .int 1)],
       [("id", .int 2), ("book_id", .int 2), ("tag_id", .int 1)],
       [("id", .int 3), ("book_id", .int 2), ("tag_id", .int 2)],
       [("id", .int 4), ("book_id", .int 3), ("tag_id", .int 2)]]
    | _ => []

theorem sound_taggedDatabase : taggedDatabase.Sound .plain taggedSchema := .of_entities (by decide +kernel)

theorem fetched_page_tagged :
    Schema.build taggedEntities taggedRelations = .ok taggedSchema ∧
      taggedRequest.root.index < taggedSchema.entities.length ∧ taggedRequest.projection = .empty ∧
      taggedRequest.limitRawSql = false ∧
      ∃ planned registry',
        taggedRequest.plan taggedSchema {} taggedRegistry = (.ok planned, registry') ∧
          (planned.query.select.map (·.label)).Nodup ∧ (planned.query.tables.map (·.name?)).Nodup ∧
          planned.query.joins ≠ [] ∧ taggedDatabase.Sound .plain taggedSchema ∧
          ∃ all page : List Instance,
            (taggedDatabase.engine .plain taggedSchema {}).fetched (taggedRequest.withBounds none none) taggedRegistry =
              .ok all ∧
            (∀ settings, (taggedDatabase.engine .plain taggedSchema settings).fetched taggedRequest taggedRegistry =
              .ok page) ∧
            page.Sublist all ∧ all.length = 3 ∧ page.length = 2 := by
  have hbuild : Schema.build taggedEntities taggedRelations = .ok taggedSchema := by rfl
  have hroot : taggedRequest.root.index < taggedSchema.entities.length := by decide
  have hplan : (taggedRequest.plan taggedSchema {} taggedRegistry).1.map (fun planned =>
      (planned.query.select.map (·.label), planned.query.tables.map (·.name?), planned.query.joins.isEmpty)) =
      .ok ([some "id", some "title", some "b00c5a_id", some "b00c5a_name"],
        [some "books", some "5c1a2e", some "b00c5a"], false) := by rfl
  obtain ⟨planned, hok, hshape⟩ := map_eq_ok.mp hplan
  obtain ⟨hselect, hshape⟩ := Prod.mk.inj hshape
  obtain ⟨htables, hjoins⟩ := Prod.mk.inj hshape
  have hlabels : (planned.query.select.map (·.label)).Nodup := by
    rw [hselect]
    decide
  have hnames : (planned.query.tables.map (·.name?)).Nodup := by
    rw [htables]
    decide
  have hjoined : planned.query.joins ≠ [] := fun hnone => by
    rw [hnone] at hjoins
    cases hjoins
  have hpair : taggedRequest.plan taggedSchema {} taggedRegistry =
      (.ok planned, (taggedRequest.plan taggedSchema {} taggedRegistry).2) := Prod.ext hok rfl
  obtain ⟨p, all, page, -, hall, -, -, hpage, hsub, hlength⟩ := fetched_page hbuild hroot rfl rfl hpair hlabels hnames
    hjoined .plain sound_taggedDatabase
  have hcount : ((taggedDatabase.engine .plain taggedSchema {}).fetched (taggedRequest.withBounds none none)
      taggedRegistry).map List.length = .ok 3 := by decide +kernel
  have hthree : all.length = 3 := by
    rw [hall] at hcount
    exact Except.ok.inj hcount
  refine ⟨hbuild, hroot, rfl, rfl, planned, _, hpair, hlabels, hnames, hjoined, sound_taggedDatabase, all, page, hall,
    hpage, hsub, hthree, ?_⟩
  rw [hlength, hthree]
  rfl

end RelQuery
