import RelQuery.Proofs.Prefetch.Attached

/-!
# Joining and prefetching

There are two strategies to load what paths lead to: one statement that joins the paths, whose rows are merged, and
follow-up statements, whose rows are attached by keys. For query sets that filter and order by fields of the root both
give the same instances, with the same relations, in the same order.
-/

namespace RelQuery

open Sql

variable {sv : Server} {db : Database} {s : Schema} {settings : Settings}

namespace QuerySet

variable {q : QuerySet}

/-- A query set whose filters and orderings read fields of the root, that selects all fields, and whose bounds count
root instances. -/
structure ReadsRoot (s : Schema) (q : QuerySet) : Prop where
  root : q.root.index < s.entities.length
  filters : ∃ filters, s.bindFilters q.root q.filters = .ok filters ∧ ∀ f ∈ filters, f.isRootOnly = true
  orders : ∃ orders, q.orderBy.mapM (s.bindOrder q.root) = .ok orders ∧ ∀ o ∈ orders, o.path.isRoot = true
  fields : q.fields = []
  excludeFields : q.excludeFields = []
  limitRawSql : q.limitRawSql = false

theorem ReadsRoot.defers (hq : q.ReadsRoot s) : ∀ o ∈ q.orderBy, ∀ q' : QuerySet, q'.defers o = false := by
  obtain ⟨orders, hordered, hroots⟩ := hq.orders
  intro o ho
  obtain ⟨b, hb, hbind⟩ := exists_of_mem_forall₂ (mapM_eq_ok.mp hordered).flip ho
  exact defers_eq_false (parts_of_bindOrder hbind (Path.isRoot_iff.mp (hroots b hb)))

theorem ReadsRoot.request_eq (hq : q.ReadsRoot s) (h : ∀ path ∈ q.prefetchRelated, ∃ r, s.resolve q.root path = .ok r) :
    q.request s = .ok (q.mainRequest s, []) := by
  have hlater : q.orderBy.filter q.defers = [] :=
    List.filter_eq_nil_iff.mpr fun o ho => by rw [hq.defers o ho]; exact Bool.false_ne_true
  refine bind_eq_ok.mpr ⟨(), forM_eq_ok.mpr fun path hpath => ?_, ?_⟩
  · obtain ⟨r, hr⟩ := h path hpath
    exact map_eq_ok.mpr ⟨r, hr, rfl⟩
  · exact congrArg (fun later => Except.ok (q.mainRequest s, later)) hlater

theorem ReadsRoot.joining (hq : q.ReadsRoot s) (paths : List Path) : (q.joining paths).ReadsRoot s :=
  ⟨hq.root, hq.filters, hq.orders, hq.fields, hq.excludeFields, hq.limitRawSql⟩

theorem ReadsRoot.prefetching (hq : q.ReadsRoot s) (paths : List Path) : (q.prefetching paths).ReadsRoot s :=
  ⟨hq.root, hq.filters, hq.orders, hq.fields, hq.excludeFields, hq.limitRawSql⟩

/-! ### Main statements -/

/-- What the main statement of a query set fetches that reads fields of the root and joins paths: the matching roots
within the bounds, loaded along the paths. -/
structure Fetches (q : QuerySet) (sv : Server) (db : Database) (s : Schema) (p : Prepared)
    (found : List Instance × PlannedQuery) : Prop where
  named : p.Named
  schema : p.schema = s
  root : p.request.root = q.root
  filters : s.bindFilters q.root q.filters = .ok p.bound.filters
  orders : q.orderBy.mapM (s.bindOrder q.root) = .ok p.bound.orders
  readsRoot : p.ReadsRoot
  levels : ∀ path ∈ q.selectRelated, path.length ≤ p.source.levels
  instances : found.1 = (bounded q.limit q.offset (p.rootsInOrder sv db)).map
    (s.loaded sv db q.selectRelated p.source.levels .root q.root)
  whole : found.2.projection.OnlyRequires
  joined : ∀ path : Path, path ≠ .root → found.2.tree.contains path = true → goThrough q.selectRelated path = true

/-- Query sets with the same filters and orderings fetch the same root rows in the same order. -/
theorem Fetches.rootsInOrder_eq {q' : QuerySet} {p' : Prepared} {found found' : List Instance × PlannedQuery}
    (h : q.Fetches sv db s p found) (h' : q'.Fetches sv db s p' found') (hdb : db.Sound sv s) (hroot : q'.root = q.root)
    (hfilters : q'.filters = q.filters) (horders : q'.orderBy = q.orderBy) :
    p'.rootsInOrder sv db = p.rootsInOrder sv db := by
  have hboundFilters := h'.filters
  have hboundOrders := h'.orders
  rw [hroot, hfilters, h.filters] at hboundFilters
  rw [hroot, horders, h.orders] at hboundOrders
  exact rootsInOrder_congr h.named h'.named (h.schema ▸ hdb) h.readsRoot (h'.schema.trans h.schema.symm)
    ((h'.root.trans hroot).trans h.root.symm) (Except.ok.inj hboundFilters).symm (Except.ok.inj hboundOrders).symm

theorem bind_mainRequest (hq : q.ReadsRoot s) (hpaths : ∀ path ∈ q.selectRelated, ∃ t, s.resolve q.root path = .ok t) :
    ∃ b, (q.mainRequest s).bind s = .ok b ∧ s.bindFilters q.root q.filters = .ok b.filters ∧
      q.orderBy.mapM (s.bindOrder q.root) = .ok b.orders ∧ (∀ f ∈ b.filters, f.isRootOnly = true) ∧
      (∀ o ∈ b.orders, o.path.isRoot = true) ∧ b.projection.OnlyRequires ∧
      ∀ path, path ≠ .root → ((∃ t ∈ b.resolved, t.path = path) ↔ goThrough q.selectRelated path = true) := by
  obtain ⟨filters, hfilters, hfilterRoots⟩ := hq.filters
  obtain ⟨orders, horders, horderRoots⟩ := hq.orders
  obtain ⟨projection, hprojection, hwhole⟩ :=
    (Projection.OnlyRequires.empty).exists_bindProjection (s := s) (r := q.mainRequest s) hq.fields hq.excludeFields
  have hmain : (q.mainRequest s).orderBy = q.orderBy :=
    List.filter_eq_self.mpr fun o ho => by rw [hq.defers o ho]; rfl
  have hreads : ∀ path ∈ filters.flatMap BoundFilter.paths ++ orders.map (·.path), path ≠ .root →
      goThrough (q.mainRequest s).selectRelated path = true := by
    intro path hpath hne
    rcases List.mem_append.mp hpath with hpath | hpath
    · obtain ⟨f, hf, hpath⟩ := List.mem_flatMap.mp hpath
      obtain ⟨hpath, -⟩ := List.mem_filter.mp (mem_distinct.mp hpath)
      obtain ⟨c, hc, rfl⟩ := List.mem_map.mp hpath
      exact absurd (Path.isRoot_iff.mp (List.all_eq_true.mp (hfilterRoots f hf) c hc)) hne
    · obtain ⟨o, ho, rfl⟩ := List.mem_map.mp hpath
      exact absurd (Path.isRoot_iff.mp (horderRoots o ho)) hne
  obtain ⟨resolved, hbind, hjoined⟩ := exists_bind hprojection hwhole.excludesPath hpaths hfilters
    (hmain.symm ▸ horders) hreads
  exact ⟨_, hbind, hfilters, horders, hfilterRoots, horderRoots, hwhole, hjoined⟩

theorem gives_fetch_main (hs : s.WellFormed) (hlinked : s.Linked) (hnames : s.WritesNames) (hdb : db.Sound sv s)
    (hq : q.ReadsRoot s) (hpaths : ∀ path ∈ q.selectRelated, ∃ t, s.resolve q.root path = .ok t) :
    ((db.recorder sv s settings).fetch (q.mainRequest s)).Gives fun found => ∃ p, q.Fetches sv db s p found := by
  obtain ⟨b, hbind, hfilters, horders, hfilterRoots, horderRoots, hwhole, hjoined⟩ := bind_mainRequest hq hpaths
  have hplain : ∀ rel ∈ s.relations, Separable rel.name := fun rel hrel => (hnames.relations rel hrel).1.toSeparable
  refine (gives_fetch_of_bind hs hplain hdb hq.root Projection.keepsKey_empty hq.limitRawSql hbind hwhole.isIncluded
    (fun t _ _ field => (hwhole.at_ t.path).isIncluded field) horderRoots).mono ?_
  rintro ⟨found, planned⟩ ⟨aliases, hnamed, htree, hprojection, hfound⟩
  dsimp only at htree hprojection hfound
  have hreads : (⟨s, q.mainRequest s, b, aliases⟩ : Prepared).ReadsRoot := ⟨hfilterRoots, horderRoots⟩
  refine ⟨⟨s, q.mainRequest s, b, aliases⟩, hnamed, rfl, rfl, hfilters, horders, hreads, fun path hpath => ?_, ?_, ?_,
    fun path hne hcontains => ?_⟩
  · by_cases hne : path = .root
    · rw [hne]
      exact Nat.zero_le _
    · obtain ⟨t, ht, rfl⟩ := (hjoined path hne).mpr (goThrough_iff.mpr ⟨path, hpath, List.prefix_rfl⟩)
      exact (le_foldl_max (fun r : ResolvedPath => r.path.length) b.resolved 0).2 t ht
  · dsimp only
    rw [hfound, allInstances_eq_loaded hnamed hdb hlinked hreads hwhole hjoined htree, map_bounded]
    rfl
  · rw [hprojection]
    exact hwhole
  · obtain ⟨nodes, hnodes, htree⟩ := map_eq_ok.mp htree
    dsimp only at hcontains
    rw [← htree, ← isSome_columnsAt?] at hcontains
    obtain ⟨columns, hcolumns⟩ := Option.isSome_iff_exists.mp hcontains
    rcases columns_of_columnsAlong hnamed.bound.joined hnodes hcolumns with ⟨hnil, -⟩ | ⟨r, hr, -, hpath, -⟩
    · exact absurd (congrArg Path.mk hnil) hne
    · exact (hjoined path hne).mp ⟨r, hr, hpath⟩

/-! ### Whole runs -/

theorem gives_all {P : List Instance × PlannedQuery → Prop} {Q : List Instance → Prop} {request : Request}
    {later : List OrderSpec} (hrequest : q.request s = .ok (request, later))
    (hfetch : ((db.recorder sv s settings).fetch request).Gives P)
    (hload : ∀ found planned, P (found, planned) → ∃ plan, prefetchPlan s request planned later = .ok plan ∧
      (prefetch (db.recorder sv s settings) plan found).Gives Q) :
    (q.all (db.recorder sv s settings)).Gives Q := by
  have hgrows : ∀ (asked : Request) (more : List OrderSpec) (fetched : List Instance × PlannedQuery),
      (Run.ofExcept (prefetchPlan s asked fetched.2 more) >>= fun plan =>
        prefetch (db.recorder sv s settings) plan fetched.1).Grows := fun asked more fetched =>
    (Run.Grows.ofExcept _).bind fun plan => grows_prefetch plan fetched.1
  unfold all
  refine Run.Gives.bind (P := fun asked => asked = (request, later)) (.ofExcept hrequest rfl) (fun asked => ?_) ?_
  · exact (Run.Grows.fetch asked.1).bind fun fetched => hgrows asked.1 asked.2 fetched
  rintro _ rfl
  refine hfetch.bind (fun fetched => hgrows request later fetched) ?_
  rintro ⟨found, planned⟩ hfetched
  obtain ⟨plan, hplan, hgives⟩ := hload found planned hfetched
  refine Run.Gives.bind (P := fun built => built = plan) (.ofExcept hplan rfl) (fun built => ?_) ?_
  · exact grows_prefetch built found
  rintro _ rfl
  exact hgives

/-- A query set that joins paths gives the roots loaded along them. -/
theorem gives_all_joined (hs : s.WellFormed) (hlinked : s.Linked) (hnames : s.WritesNames) (hdb : db.Sound sv s)
    (hq : q.ReadsRoot s) (hnone : q.prefetchRelated = [])
    (hpaths : ∀ path ∈ q.selectRelated, ∃ t, s.resolve q.root path = .ok t) :
    (q.all (db.recorder sv s settings)).Gives fun found => ∃ p planned, q.Fetches sv db s p (found, planned) := by
  refine gives_all (hq.request_eq fun path hpath => ?_) (gives_fetch_main hs hlinked hnames hdb hq hpaths) ?_
  · rw [hnone] at hpath
    cases hpath
  · rintro found planned ⟨p, hfetches⟩
    have hplan : prefetchPlan s (q.mainRequest s) planned [] = .ok [] := by
      unfold prefetchPlan
      rw [show (q.mainRequest s).prefetchRelated = [] from hnone]
      rfl
    exact ⟨[], hplan, .pure ⟨p, planned, hfetches⟩⟩

/-- A query set that joins nothing gives the roots loaded along the paths that it prefetches. -/
theorem gives_all_prefetched (hdb : db.Serves sv s) (hq : q.ReadsRoot s) (hnone : q.selectRelated = [])
    (hpaths : ∀ path ∈ q.prefetchRelated, ∃ t, s.resolve q.root path = .ok t) {levels : Nat}
    (hlevels : ∀ path ∈ q.prefetchRelated, path.length ≤ levels) :
    (q.all (db.recorder sv s settings)).Gives fun found => ∃ (p : Prepared) (planned : PlannedQuery)
      (roots : List Instance), q.Fetches sv db s p (roots, planned) ∧
        found = (bounded q.limit q.offset (p.rootsInOrder sv db)).map
          (s.loaded sv db q.prefetchRelated levels .root q.root) := by
  refine gives_all (hq.request_eq hpaths) (gives_fetch_main hdb.schema hdb.linked hdb.names hdb.sound hq ?_) ?_
  · rw [hnone]
    exact fun path hpath => absurd hpath List.not_mem_nil
  · rintro roots planned ⟨p, hfetches⟩
    obtain ⟨plan, hplan⟩ := exists_build hpaths planned.tree planned.projection []
    have hcover := (nodesCover_build hplan).congr fun name path hpre =>
      (goThrough_keptPaths hfetches.whole (Path.ne_root_of_prefix hpre (Path.child_ne_root .root name))).symm
    have horders : ∀ node ∈ nodesListed plan, node.orderBy = [] := orderBy_of_build hplan
    -- nothing is joined, so every related instance has to come from a fetch of its own
    have hunjoined : ∀ path : Path, path ≠ .root → planned.tree.contains path = false := by
      refine fun path hne => Bool.eq_false_iff.mpr fun hcontains => ?_
      have hthrough := hfetches.joined path hne hcontains
      rw [hnone] at hthrough
      cases hthrough
    have hroots : roots = (bounded q.limit q.offset (p.rootsInOrder sv db)).map (s.having q.root · []) := by
      refine hfetches.instances.trans (List.map_congr_left fun r _ => ?_)
      rw [hnone]
      exact loaded_of_end (fun _ => rfl) _ _ _
    have hrows : bounded q.limit q.offset (p.rootsInOrder sv db) ⊆ db.of s q.root := by
      intro r hr
      have hmem := (perm_rootsInOrder p sv db).mem_iff.mp ((bounded_sublist _ _ _).subset hr)
      have hof := matching_subset hfetches.named hmem
      rwa [hfetches.schema, hfetches.root] at hof
    refine ⟨plan, hplan, ?_⟩
    rw [hroots]
    refine (gives_prefetch hdb hunjoined hfetches.whole hcover horders hlevels hrows).mono ?_
    rintro found rfl
    exact ⟨p, planned, roots, hfetches, rfl⟩

/-- Joining paths and prefetching them load the same instances. -/
theorem all_joining_eq_all_prefetching {entities : List EntityDecl} {relations : List RelationDecl}
    (hs : Schema.build entities relations = .ok s) (hnames : s.WritesNames) (hnamed : s.KeysNamed) (sv : Server)
    {db : Database} (hdb : db.Sound sv s) (hagree : db.KeysAgree sv s) (hq : q.ReadsRoot s)
    (hjoinsNothing : q.selectRelated = []) (hprefetchesNothing : q.prefetchRelated = []) {paths : List Path}
    (hpaths : ∀ path ∈ paths, ∃ t, s.resolve q.root path = .ok t) (settings : Settings)
    (session session' : Session (List Query))
    (hlabels : DistinctLabels (((q.joining paths).all (db.recorder sv s settings)).exec session).2.backend)
    (hlabels' : DistinctLabels (((q.prefetching paths).all (db.recorder sv s settings)).exec session').2.backend) :
    (∃ found, (((q.joining paths).all (db.recorder sv s settings)).exec session).1 = .ok found ∧
      (((q.prefetching paths).all (db.recorder sv s settings)).exec session').1 = .ok found) ∨
    ∃ err, err.isAliasError = true ∧
      ((((q.joining paths).all (db.recorder sv s settings)).exec session).1 = .error err ∨
        (((q.prefetching paths).all (db.recorder sv s settings)).exec session').1 = .error err) := by
  have hjoins : (q.joining paths).selectRelated = paths := by
    rw [joining, hjoinsNothing, List.nil_append]
  have hprefetches : (q.prefetching paths).prefetchRelated = paths := by
    rw [prefetching, hprefetchesNothing, List.nil_append]
  have hserves : db.Serves sv s := ⟨wellFormed_build hs, linked_build hs, hnames, hnamed, hdb, hagree⟩
  have hjoined : ((q.joining paths).all (db.recorder sv s settings)).Gives fun found => ∃ p planned,
      (q.joining paths).Fetches sv db s p (found, planned) :=
    gives_all_joined hserves.schema hserves.linked hnames hdb (hq.joining paths) hprefetchesNothing
      (hjoins.symm ▸ hpaths)
  obtain ⟨found, hfound, p, planned, hfetches⟩ | ⟨err, herr, halias⟩ := hjoined session hlabels
  · have hlevels : ∀ path ∈ (q.prefetching paths).prefetchRelated, path.length ≤ p.source.levels :=
      fun path hpath => hfetches.levels path (by rwa [hjoins, ← hprefetches])
    have hprefetched : ((q.prefetching paths).all (db.recorder sv s settings)).Gives fun found =>
        ∃ (p' : Prepared) (planned : PlannedQuery) (roots : List Instance),
          (q.prefetching paths).Fetches sv db s p' (roots, planned) ∧
            found = (bounded q.limit q.offset (p'.rootsInOrder sv db)).map
              (s.loaded sv db (q.prefetching paths).prefetchRelated p.source.levels .root q.root) :=
      gives_all_prefetched hserves (hq.prefetching paths) hjoinsNothing (hprefetches.symm ▸ hpaths) hlevels
    obtain ⟨found', hfound', p', planned', roots, hfetches', hall⟩ | ⟨err, herr, halias⟩ :=
      hprefetched session' hlabels'
    · refine .inl ⟨found, hfound, hfound'.trans (congrArg Except.ok ?_)⟩
      have hinstances : found = (bounded q.limit q.offset (p.rootsInOrder sv db)).map
          (s.loaded sv db paths p.source.levels .root q.root) := hjoins ▸ hfetches.instances
      rw [hall, hprefetches, hfetches.rootsInOrder_eq hfetches' hdb rfl rfl rfl, hinstances]
    · exact .inr ⟨err, halias, .inr herr⟩
  · exact .inr ⟨err, halias, .inl herr⟩

end QuerySet

/-- The keys of what is loaded under a name. -/
def Instance.relatedKeys (s : Schema) (name : String) (i : Instance) : Option (List Value) :=
  (i.related? name).map fun related => related.instances.map (·.pk s)

/-- The books, by title. -/
def booksByTitle : QuerySet := { root := ⟨0⟩, orderBy := [⟨["title"], false⟩] }

def taggedSession : Session (List Query) :=
  ⟨⟨6, taggedRegistry.entries ++ tagOwnersRegistry.entries⟩, [], []⟩

theorem keysAgree_taggedDatabase : taggedDatabase.KeysAgree .plain taggedSchema := by
  unfold Database.KeysAgree
  decide +kernel

theorem readsRoot_booksByTitle : booksByTitle.ReadsRoot taggedSchema where
  root := by decide
  filters := ⟨[], rfl, by decide⟩
  orders := ⟨[⟨.root, "title", false⟩], rfl, by decide⟩
  fields := rfl
  excludeFields := rfl
  limitRawSql := rfl

theorem all_joining_eq_all_prefetching_tagged :
    Schema.build taggedEntities taggedRelations = .ok taggedSchema ∧ taggedSchema.WritesNames ∧ taggedSchema.KeysNamed ∧
      taggedDatabase.Sound .plain taggedSchema ∧ taggedDatabase.KeysAgree .plain taggedSchema ∧
      booksByTitle.ReadsRoot taggedSchema ∧ booksByTitle.selectRelated = [] ∧ booksByTitle.prefetchRelated = [] ∧
      (∀ path ∈ [⟨["tags", "books"]⟩], ∃ t, taggedSchema.resolve booksByTitle.root path = .ok t) ∧
      DistinctLabels (((booksByTitle.joining [⟨["tags", "books"]⟩]).all
        (taggedDatabase.recorder .plain taggedSchema {})).exec taggedSession).2.backend ∧
      DistinctLabels (((booksByTitle.prefetching [⟨["tags", "books"]⟩]).all
        (taggedDatabase.recorder .plain taggedSchema {})).exec taggedSession).2.backend ∧
      ∃ found : List Instance,
        found.map (Instance.relatedKeys taggedSchema "tags") = [some [.int 2], some [.int 1, .int 2], some [.int 1]] ∧
        (((booksByTitle.joining [⟨["tags", "books"]⟩]).all
          (taggedDatabase.recorder .plain taggedSchema {})).exec taggedSession).1 = .ok found ∧
        (((booksByTitle.prefetching [⟨["tags", "books"]⟩]).all
          (taggedDatabase.recorder .plain taggedSchema {})).exec taggedSession).1 = .ok found := by
  have hbuild : Schema.build taggedEntities taggedRelations = .ok taggedSchema := by rfl
  have hnames : taggedSchema.WritesNames := ⟨by decide, by decide⟩
  have hnamed : taggedSchema.KeysNamed := by
    unfold Schema.KeysNamed
    decide
  have hpaths : ∀ path ∈ [⟨["tags", "books"]⟩], ∃ t, taggedSchema.resolve booksByTitle.root path = .ok t :=
    List.forall_mem_singleton.mpr ⟨_, rfl⟩
  have hlabels : DistinctLabels (((booksByTitle.joining [⟨["tags", "books"]⟩]).all
      (taggedDatabase.recorder .plain taggedSchema {})).exec taggedSession).2.backend := by
    unfold DistinctLabels
    decide +kernel
  have hlabels' : DistinctLabels (((booksByTitle.prefetching [⟨["tags", "books"]⟩]).all
      (taggedDatabase.recorder .plain taggedSchema {})).exec taggedSession).2.backend := by
    unfold DistinctLabels
    decide +kernel
  have hjoined : (((booksByTitle.joining [⟨["tags", "books"]⟩]).all
      (taggedDatabase.recorder .plain taggedSchema {})).exec taggedSession).1.map
        (·.map (Instance.relatedKeys taggedSchema "tags")) =
      .ok [some [.int 2], some [.int 1, .int 2], some [.int 1]] := by decide +kernel
  have hprefetched : (((booksByTitle.prefetching [⟨["tags", "books"]⟩]).all
      (taggedDatabase.recorder .plain taggedSchema {})).exec taggedSession).1.map List.length = .ok 3 := by
    decide +kernel
  obtain ⟨joined, hjoinedOk, hkeys⟩ := map_eq_ok.mp hjoined
  obtain ⟨prefetched, hprefetchedOk, -⟩ := map_eq_ok.mp hprefetched
  obtain ⟨found, hfound, hfound'⟩ | ⟨err, -, herr | herr⟩ :=
    QuerySet.all_joining_eq_all_prefetching hbuild hnames hnamed .plain sound_taggedDatabase keysAgree_taggedDatabase
      readsRoot_booksByTitle rfl rfl hpaths {} taggedSession taggedSession hlabels hlabels'
  · obtain rfl : joined = found := Except.ok.inj (hjoinedOk.symm.trans hfound)
    exact ⟨hbuild, hnames, hnamed, sound_taggedDatabase, keysAgree_taggedDatabase, readsRoot_booksByTitle, rfl, rfl,
      hpaths, hlabels, hlabels', joined, hkeys, hfound, hfound'⟩
  · rw [hjoinedOk] at herr
    cases herr
  · rw [hprefetchedOk] at herr
    cases herr

/-- Authors and books, whose foreign keys go by the general name of primary keys. -/
def pkFieldEntities : List EntityDecl :=
  [⟨"Author", "authors", some "id", [⟨"id", "id", false⟩, ⟨"name", "name", false⟩], by decide⟩,
   ⟨"Book", "books", some "id", [⟨"id", "id", false⟩, ⟨"pk", "pk", true⟩], by decide⟩]

def pkFieldRelations : List RelationDecl := [⟨"Book", "author", "Author", .foreignKey "pk", true, some "books"⟩]

def pkFieldSchema : Schema :=
  ⟨[⟨"Author", "authors", "id", [⟨"id", "id", false⟩, ⟨"name", "name", false⟩]⟩,
    ⟨"Book", "books", "id", [⟨"id", "id", false⟩, ⟨"pk", "pk", true⟩]⟩],
   [⟨"author", .foreignKey "pk", ⟨1⟩, ⟨0⟩, true, false, some "books", ⟨1⟩⟩,
    ⟨"books", .reverseForeignKey "pk", ⟨0⟩, ⟨1⟩, true, true, some "author", ⟨0⟩⟩]⟩

/-- An author with a book. -/
def pkFieldDatabase : Database where
  rows
    | "authors" => [[("id", .int 1), ("name", .text "Ann")]]
    | "books" => [[("id", .int 5), ("pk", .int 1)]]
    | _ => []

def authorSession : Session (List Query) := ⟨authorRegistry, [], []⟩

/-- The statement that joins the books of an author compares their foreign keys with the key of the author, the
follow-up statement their primary keys. -/
theorem all_prefetching_misses_books :
    Schema.build pkFieldEntities pkFieldRelations = .ok pkFieldSchema ∧ pkFieldSchema.WritesNames ∧
      pkFieldDatabase.Sound .plain pkFieldSchema ∧ pkFieldDatabase.KeysAgree .plain pkFieldSchema ∧
      (QuerySet.ofEntity ⟨0⟩).ReadsRoot pkFieldSchema ∧
      DistinctLabels ((((QuerySet.ofEntity ⟨0⟩).joining [⟨["books"]⟩]).all
        (pkFieldDatabase.recorder .plain pkFieldSchema {})).exec authorSession).2.backend ∧
      DistinctLabels ((((QuerySet.ofEntity ⟨0⟩).prefetching [⟨["books"]⟩]).all
        (pkFieldDatabase.recorder .plain pkFieldSchema {})).exec authorSession).2.backend ∧
      ∃ joined prefetched : List Instance,
        ((((QuerySet.ofEntity ⟨0⟩).joining [⟨["books"]⟩]).all
          (pkFieldDatabase.recorder .plain pkFieldSchema {})).exec authorSession).1 = .ok joined ∧
        ((((QuerySet.ofEntity ⟨0⟩).prefetching [⟨["books"]⟩]).all
          (pkFieldDatabase.recorder .plain pkFieldSchema {})).exec authorSession).1 = .ok prefetched ∧
        joined.map (Instance.relatedKeys pkFieldSchema "books") = [some [.int 5]] ∧
        prefetched.map (Instance.relatedKeys pkFieldSchema "books") = [some []] ∧ joined ≠ prefetched := by
  have hjoined : ((((QuerySet.ofEntity ⟨0⟩).joining [⟨["books"]⟩]).all
      (pkFieldDatabase.recorder .plain pkFieldSchema {})).exec authorSession).1.map
        (·.map (Instance.relatedKeys pkFieldSchema "books")) = .ok [some [.int 5]] := by decide +kernel
  have hprefetched : ((((QuerySet.ofEntity ⟨0⟩).prefetching [⟨["books"]⟩]).all
      (pkFieldDatabase.recorder .plain pkFieldSchema {})).exec authorSession).1.map
        (·.map (Instance.relatedKeys pkFieldSchema "books")) = .ok [some []] := by decide +kernel
  obtain ⟨joined, hjoinedOk, hbooks⟩ := map_eq_ok.mp hjoined
  obtain ⟨prefetched, hprefetchedOk, hnothing⟩ := map_eq_ok.mp hprefetched
  have hdiffer : joined ≠ prefetched := by
    rintro rfl
    rw [hbooks] at hnothing
    exact absurd hnothing (by decide)
  refine ⟨by rfl, ⟨by decide, by decide⟩, .of_entities (by decide +kernel), ?_, ?_, ?_, ?_, joined, prefetched,
    hjoinedOk, hprefetchedOk, hbooks, hnothing, hdiffer⟩
  · unfold Database.KeysAgree
    decide +kernel
  · exact ⟨by decide, ⟨[], rfl, by decide⟩, ⟨[], rfl, by decide⟩, rfl, rfl, rfl⟩
  · unfold DistinctLabels
    decide +kernel
  · unfold DistinctLabels
    decide +kernel

end RelQuery
