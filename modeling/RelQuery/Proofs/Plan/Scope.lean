import RelQuery.Proofs.Plan.Reads

/-!
# Scopes of planned statements

Every query that is planned reads columns of its own tables only, whatever the registry holds. Where a page leaves the
joins out, it keeps to filters and orderings of the root; the other queries have all joins.
-/

namespace RelQuery

open Sql

variable {s : Schema} {p : Prepared}

/-! ### Queries over tables -/

/-- What all expressions of a query satisfy, by where they stand. -/
theorem forall_mem_exprs {P : Expr → Prop} {q : Query} (select : ∀ item ∈ q.select, P item.expr)
    (condition : ∀ e, q.condition = some e → P e) (groupBy : ∀ e ∈ q.groupBy, P e)
    (orderBy : ∀ item ∈ q.orderBy, P item.expr) : ∀ e ∈ q.exprs, P e := by
  intro e he
  unfold Query.exprs at he
  simp only [List.mem_append, List.mem_map, Option.mem_toList] at he
  rcases he with ((⟨item, hitem, rfl⟩ | he) | he) | ⟨item, hitem, rfl⟩
  · exact select item hitem
  · exact condition e he
  · exact groupBy e he
  · exact orderBy item hitem

theorem Prepared.Named.provides_root (h : p.Named) :
    ProvidesEntity p.schema p.tableNames [.ofTable p.rootTable] p.rootName :=
  fun _ hcolumn => ⟨_, List.mem_singleton_self _, rfl, p.rootTable, p.request.root, rfl,
    h.get?_tableNames (List.mem_cons_self ..), rfl, hcolumn⟩

theorem queries_on {js : List Join} (hjs : p.joins = .ok js) : ∀ j ∈ js, j.on.queries = [] := by
  intro j hj
  obtain ⟨_, _, _, _, _, _, rfl⟩ := eq_leftJoin_of_joins hjs j hj
  rfl

/-- A query of the root table, or of what stands in its place, and of some joined tables. -/
theorem scoped_over (h : p.Named) {rest : List (String × EntityId)} (hrest : rest.Sublist p.tableNames.tail)
    {q : Query} {base : TableRef} (htable : q.table = some base) (hname : base.name? = some p.rootTable)
    (hbase : ProvidesEntity p.schema p.tableNames [base] p.rootName)
    (hderived : ∀ inner, base.query? = some inner → inner.Scoped p.schema p.tableNames)
    (htables : q.joins.map (·.table) = rest.map p.schema.tableAs)
    (hscoped : JoinsScoped p.schema p.tableNames [base] q.joins) (hon : ∀ j ∈ q.joins, j.on.queries = [])
    (hexprs : ∀ e ∈ q.exprs, p.Reads (p.rootName :: rest) e) : q.Scoped p.schema p.tableNames := by
  have hsub : (p.rootName :: rest).Sublist p.tableNames := hrest.cons_cons p.rootName
  have hall : q.tables = base :: rest.map p.schema.tableAs := by
    unfold Query.tables
    rw [htable, htables]
    rfl
  have hprovides : ∀ n ∈ p.rootName :: rest, ProvidesEntity p.schema p.tableNames q.tables n := by
    intro n hn
    rw [hall]
    rcases List.mem_cons.mp hn with rfl | hjoined
    · exact hbase.append
    · exact providesEntity_tableAs (h.get?_tableNames (hsub.mem hn)) (List.mem_cons_of_mem _ (List.mem_map_of_mem hjoined))
  refine .of_parts ⟨?_, ?_, fun e he => (hexprs e he).readsFrom hprovides⟩ ?_ ?_
  · have hnames : q.tables.map (·.name?) = ((p.rootName :: rest).map (·.1)).map some := by
      rw [hall, List.map_cons, List.map_map, hname, List.map_map]
      rfl
    rw [hnames]
    exact (h.nodup_tableNames.sublist (hsub.map _)).map fun _ _ => Option.some.inj
  · rw [htable]
    exact hscoped
  · intro t ht inner hinner
    rw [hall] at ht
    rcases List.mem_cons.mp ht with rfl | hjoined
    · exact hderived inner hinner
    · obtain ⟨n, -, rfl⟩ := List.mem_map.mp hjoined
      cases hinner
  · intro e he inner hinner
    rcases List.mem_append.mp he with he | he
    · exact (hexprs e he).queries inner hinner
    · obtain ⟨j, hj, rfl⟩ := List.mem_map.mp he
      rw [hon j hj] at hinner
      cases hinner

theorem scoped_joined (h : p.Named) {js : List Join} (hjs : p.joins = .ok js) {q : Query} {base : TableRef}
    (htable : q.table = some base) (hname : base.name? = some p.rootTable)
    (hbase : ProvidesEntity p.schema p.tableNames [base] p.rootName)
    (hderived : ∀ inner, base.query? = some inner → inner.Scoped p.schema p.tableNames) (hjoins : q.joins = js)
    (hexprs : ∀ e ∈ q.exprs, p.Reads p.tableNames e) : q.Scoped p.schema p.tableNames := by
  obtain ⟨htables, hscoped⟩ := joinsScoped_joins h hjs hbase
  subst hjoins
  exact scoped_over h (List.Sublist.refl _) htable hname hbase hderived htables hscoped (queries_on hjs) hexprs

theorem scoped_rootJoined (h : p.Named) {js : List Join} (hjs : p.joins = .ok js) {q : Query}
    (htable : q.table = some (.ofTable p.rootTable)) (hjoins : q.joins = js)
    (hexprs : ∀ e ∈ q.exprs, p.Reads p.tableNames e) : q.Scoped p.schema p.tableNames :=
  scoped_joined h hjs htable rfl h.provides_root (fun _ hinner => by cases hinner) hjoins hexprs

theorem scoped_rootOnly (h : p.Named) {q : Query} (htable : q.table = some (.ofTable p.rootTable)) (hjoins : q.joins = [])
    (hexprs : ∀ e ∈ q.exprs, p.Reads [p.rootName] e) : q.Scoped p.schema p.tableNames := by
  refine scoped_over h (List.nil_sublist _) htable rfl h.provides_root (fun _ hinner => by cases hinner) ?_ ?_ ?_ hexprs
  · rw [hjoins]
    rfl
  · rw [hjoins]
    trivial
  · rw [hjoins]
    exact fun j hj => by cases hj

variable {js : List Join} {predicates : List Predicate}

theorem reads_condition (h : p.Named) (hp : p.predicates = .ok predicates) {e : Expr}
    (he : Expr.all? (predicates.map (·.expr)) = some e) : p.Reads p.tableNames e := by
  refine reads_all? he fun part hpart => ?_
  obtain ⟨pred, hpred, rfl⟩ := List.mem_map.mp hpart
  exact (reads_predicates h hp pred hpred).1

/-- The query that conditions on joined tables select root rows by. -/
theorem scoped_matching (h : p.Named) (hjs : p.joins = .ok js) (hp : p.predicates = .ok predicates) :
    Query.Scoped p.schema p.tableNames
      { Query.empty with
        select := [⟨p.rootKey, none⟩], table := some (.ofTable p.rootTable), joins := js
        condition := Expr.all? ((predicates.filter (!·.rootOnly)).map (·.expr)) } := by
  refine scoped_rootJoined h hjs rfl rfl (forall_mem_exprs ?_ ?_ (fun e he => by cases he) (fun e he => by cases he))
  · exact List.forall_mem_singleton.mpr (h.reads_rootKey.mono rootName_subset)
  · intro e he
    refine reads_all? he fun part hpart => ?_
    obtain ⟨pred, hpred, rfl⟩ := List.mem_map.mp hpart
    exact (reads_predicates h hp pred (List.mem_filter.mp hpred).1).1

theorem reads_onRoot (h : p.Named) (hp : p.predicates = .ok predicates) :
    ∀ part ∈ (predicates.filter (·.rootOnly)).map (·.expr), p.Reads [p.rootName] part := by
  intro part hpart
  obtain ⟨pred, hpred, rfl⟩ := List.mem_map.mp hpart
  obtain ⟨hpred, hroot⟩ := List.mem_filter.mp hpred
  exact (reads_predicates h hp pred hpred).2 hroot

/-- The page of root rows, with the joins where an ordering needs them and without them otherwise. -/
theorem scoped_page (h : p.Named) (hjs : p.joins = .ok js) (hp : p.predicates = .ok predicates)
    {select : List SelectItem} (hselect : ∀ item ∈ select, p.Reads [p.rootName] item.expr) {page : Query}
    (hpage : p.page js predicates select = .ok page) :
    page.Scoped p.schema p.tableNames ∧ page.select = select := by
  unfold Prepared.page at hpage
  obtain ⟨orderBy, horder, hpage⟩ := bind_eq_ok.mp hpage
  cases hpage
  obtain ⟨hordered, hrootOrdered⟩ := reads_pageOrder h horder
  unfold Prepared.pageRows
  cases hrelation : p.ordersByRelation with
  | true =>
    refine ⟨scoped_rootJoined h hjs rfl rfl (forall_mem_exprs ?_ ?_ ?_ hordered), rfl⟩
    · exact fun item hitem => (hselect item hitem).mono rootName_subset
    · exact fun e he => reads_condition h hp he
    · exact fun e he => (reads_rootColumns e he).mono rootName_subset
  | false =>
    have hitems := hrootOrdered hrelation
    dsimp only
    rw [if_neg Bool.false_ne_true]
    split
    · refine ⟨scoped_rootOnly h rfl rfl (forall_mem_exprs hselect ?_ (fun e he => by cases he) hitems), rfl⟩
      exact fun e he => reads_all? he (reads_onRoot h hp)
    · refine ⟨scoped_rootOnly h rfl rfl (forall_mem_exprs hselect ?_ (fun e he => by cases he) hitems), rfl⟩
      refine fun e he => reads_all? he (List.forall_mem_append.mpr ⟨reads_onRoot h hp, ?_⟩)
      exact List.forall_mem_singleton.mpr (reads_inQuery h.reads_rootKey (scoped_matching h hjs hp))

/-- A page stands for the root table: it selects all its columns. -/
theorem provides_page {page : Query} (hselect : page.select = p.rootColumns.map fun e => ⟨e, none⟩) :
    ProvidesEntity p.schema p.tableNames [.ofQuery page p.rootTable] p.rootName := by
  intro column hcolumn
  refine ⟨_, List.mem_singleton_self _, rfl, ?_⟩
  obtain ⟨c, hc, rfl⟩ := List.mem_map.mp hcolumn
  have hitem : (⟨.col p.rootTable c.dbName, none⟩ : SelectItem) ∈ page.select := by
    rw [hselect]
    exact List.mem_map_of_mem (List.mem_map_of_mem hc)
  exact List.mem_map_of_mem (f := (·.name?)) hitem

theorem scoped_keys {page : Query} (hpage : page.Scoped p.schema p.tableNames)
    (hselect : page.select = [⟨p.rootKey, none⟩]) : (p.keysOf page).Scoped p.schema p.tableNames := by
  have hread : (Expr.col pageLabel p.rootEntity.pkColumn.dbName).ReadsFrom p.schema p.tableNames
      [.ofQuery page pageLabel] := by
    refine readsFrom_col.mpr ⟨_, List.mem_singleton_self _, rfl, ?_⟩
    show some p.rootEntity.pkColumn.dbName ∈ page.select.map (·.name?)
    rw [hselect]
    exact List.mem_singleton_self _
  refine .of_parts ⟨List.nodup_singleton _, trivial, List.forall_mem_singleton.mpr hread⟩ ?_ ?_
  · intro t ht inner hinner
    rw [List.mem_singleton.mp ht] at hinner
    cases hinner
    exact hpage
  · intro e he inner hinner
    rw [List.mem_singleton.mp he] at hinner
    cases hinner

/-! ### Statements -/

theorem scoped_query (h : p.Named) {registry : AliasRegistry} (hfrom : PreparedFrom p.schema registry p.request p)
    (hjs : p.joins = .ok js) (hp : p.predicates = .ok predicates) {t : JoinTree} (ht : p.tree = .ok t)
    {orderBy : List OrderItem} (ho : p.orderBy = .ok orderBy) {settings : Settings} {q : Query}
    (hq : p.query settings t js predicates orderBy = .ok q) : q.Scoped p.schema p.tableNames := by
  have hselect := reads_selectList h hfrom ht
  have hordered := reads_orderBy h ho
  obtain ⟨-, rfl⟩ | ⟨-, page, hpage, rfl⟩ | ⟨-, page, hpage, rfl⟩ := query_cases hq
  · refine scoped_rootJoined h hjs rfl rfl (forall_mem_exprs hselect ?_ (fun e he => by cases he) hordered)
    exact fun e he => reads_condition h hp he
  · have hcolumns : ∀ item ∈ p.rootColumns.map fun e => (⟨e, none⟩ : SelectItem), p.Reads [p.rootName] item.expr :=
      List.forall_mem_map.mpr reads_rootColumns
    obtain ⟨hscoped, hpageSelect⟩ := scoped_page h hjs hp hcolumns hpage
    refine scoped_joined h hjs rfl rfl (provides_page hpageSelect) ?_ rfl
      (forall_mem_exprs hselect ?_ (fun e he => by cases he) hordered)
    · intro inner hinner
      cases hinner
      exact hscoped
    · intro e he
      refine reads_all? he fun part hpart => ?_
      obtain ⟨pred, hpred, rfl⟩ := List.mem_map.mp hpart
      exact (reads_predicates h hp pred (List.mem_filter.mp hpred).1).1
  · obtain ⟨hscoped, hpageSelect⟩ := scoped_page h hjs hp (List.forall_mem_singleton.mpr h.reads_rootKey) hpage
    refine scoped_rootJoined h hjs rfl rfl (forall_mem_exprs hselect ?_ (fun e he => by cases he) hordered)
    refine fun e he => reads_all? he (List.forall_mem_append.mpr ⟨fun part hpart => ?_, ?_⟩)
    · obtain ⟨pred, hpred, rfl⟩ := List.mem_map.mp hpart
      exact (reads_predicates h hp pred hpred).1
    · exact List.forall_mem_singleton.mpr
        (reads_inQuery (h.reads_rootKey.mono rootName_subset) (scoped_keys hscoped hpageSelect))

theorem scoped_countQuery (h : p.Named) {q : Query} (hq : p.countQuery = .ok q) :
    q.Scoped p.schema p.tableNames := by
  unfold Prepared.countQuery at hq
  obtain ⟨js, hjs, hq⟩ := bind_eq_ok.mp hq
  obtain ⟨predicates, hp, hq⟩ := bind_eq_ok.mp hq
  cases hq
  refine scoped_rootJoined h hjs rfl rfl (forall_mem_exprs ?_ ?_ (fun e he => by cases he) (fun e he => by cases he))
  · exact List.forall_mem_singleton.mpr (reads_call (h.reads_rootKey.mono rootName_subset))
  · exact fun e he => reads_condition h hp he

theorem named_of_prepare {registry registry' : AliasRegistry} {r : Request} (hs : s.WellFormed)
    (hroot : r.root.index < s.entities.length) (h : r.prepare s registry = (.ok p, registry'))
    (hdiffer : p.PathsDiffer) : p.Named := by
  obtain ⟨rfl, rfl, hbound, ⟨registry'', hassign⟩, -⟩ := preparedFrom_of_prepare h
  exact ⟨hs, hroot, hbound, hdiffer, namesPaths_of_assign hdiffer hassign⟩

theorem exists_name_of_walk {start target : EntityId} {names : List String} {hops : List RelationId}
    (h : s.walk start names = .ok (hops, target)) : ∀ name ∈ names, ∃ rel ∈ s.relations, rel.name = name := by
  induction names generalizing start hops with
  | nil => simp
  | cons first rest ih =>
    obtain ⟨id, more, hid, hrest, -⟩ := walk_cons.mp h
    obtain ⟨hmem, -, hname⟩ := relation_of_findRelation? hid
    exact List.forall_mem_cons.mpr ⟨⟨s.relation id, hmem, hname⟩, ih hrest⟩

/-- Where the names of relations hold no separators, paths are told apart by how they are written. -/
theorem pathsDiffer_of_separable {registry registry' : AliasRegistry} {r : Request}
    (h : r.prepare s registry = (.ok p, registry')) (hplain : ∀ rel ∈ s.relations, Separable rel.name) :
    p.PathsDiffer := by
  have hjoined := (preparedFrom_of_prepare h).bound.joined
  have hnames : ∀ t ∈ p.bound.resolved, ∀ name ∈ t.path.segments, Separable name := by
    intro t ht name hname
    obtain ⟨rel, hrel, rfl⟩ := exists_name_of_walk (hjoined.resolves t ht) name hname
    exact hplain rel hrel
  refine List.pairwise_map.mpr ((List.pairwise_map.mp hjoined.nodup).imp_of_mem fun {t u} ht hu hne htext => ?_)
  exact hne (Path.eq_of_text_eq (hjoined.ne_root t ht) (hjoined.ne_root u hu) (hnames t ht) (hnames u hu) htext)

/-- Every statement for an entity of a built schema is well scoped, its nested queries included, whenever the joined
paths are told apart by how they are written. The names that it reads stand for the root entity and the entities along
these paths, each name for one. -/
theorem wellScoped_statements {entities : List EntityDecl} {relations : List RelationDecl}
    (hs : Schema.build entities relations = .ok s) {r : Request} (hroot : r.root.index < s.entities.length)
    (registry : AliasRegistry) :
    (∀ settings planned registry', r.plan s settings registry = (.ok planned, registry') →
      ∃ p, r.prepare s registry = (.ok p, registry') ∧
        ((∀ rel ∈ s.relations, PlainName rel.name) → p.PathsDiffer) ∧
        (p.PathsDiffer → (p.tableNames.map (·.1)).Nodup ∧ planned.query.Scoped s p.tableNames)) ∧
    (∀ counting registry', r.planCount s registry = (.ok counting, registry') →
      ∃ p, r.prepare s registry = (.ok p, registry') ∧
        ((∀ rel ∈ s.relations, PlainName rel.name) → p.PathsDiffer) ∧
        (p.PathsDiffer → (p.tableNames.map (·.1)).Nodup ∧ counting.Scoped s p.tableNames)) := by
  have hw := wellFormed_build hs
  constructor
  · intro settings planned registry' hplan
    unfold Request.plan at hplan
    split at hplan
    · cases hplan
    · rename_i p _ hp
      obtain ⟨hok, rfl⟩ := Prod.mk.inj hplan
      refine ⟨p, hp, fun hplain => pathsDiffer_of_separable hp fun rel hrel => (hplain rel hrel).separable, fun hdiffer => ?_⟩
      have hnamed := named_of_prepare hw hroot hp hdiffer
      have hfrom := preparedFrom_of_prepare hp
      obtain ⟨joins, predicates, orderBy, htree, hjoins, hpredicates, horderBy, hquery⟩ := plan_eq_ok (NoResult.lift_eq_ok.mp hok)
      refine ⟨hnamed.nodup_tableNames, ?_⟩
      rw [← hfrom.schema]
      rw [← hfrom.schema, ← hfrom.request] at hfrom
      exact scoped_query hnamed hfrom hjoins hpredicates htree horderBy hquery
  · intro counting registry' hplan
    unfold Request.planCount at hplan
    split at hplan
    · cases hplan
    · rename_i p _ hp
      obtain ⟨hok, rfl⟩ := Prod.mk.inj hplan
      refine ⟨p, hp, fun hplain => pathsDiffer_of_separable hp fun rel hrel => (hplain rel hrel).separable, fun hdiffer => ?_⟩
      have hnamed := named_of_prepare hw hroot hp hdiffer
      refine ⟨hnamed.nodup_tableNames, ?_⟩
      rw [← (preparedFrom_of_prepare hp).schema]
      exact scoped_countQuery hnamed (NoResult.lift_eq_ok.mp hok)

/-- Books and tags, linked by a table of their own. -/
def taggedEntities : List EntityDecl :=
  [⟨"Book", "books", some "id", [⟨"id", "id", false⟩, ⟨"title", "title", true⟩], by decide⟩,
   ⟨"Tag", "tags", some "id", [⟨"id", "id", false⟩, ⟨"name", "label", true⟩], by decide⟩,
   ⟨"BookTag", "book_tags", some "id",
     [⟨"id", "id", false⟩, ⟨"book", "book_id", false⟩, ⟨"tag", "tag_id", false⟩], by decide⟩]

def taggedRelations : List RelationDecl :=
  [⟨"Book", "tags", "Tag", .manyToMany "BookTag" "book" "tag", true, some "books"⟩]

def taggedSchema : Schema :=
  ⟨[⟨"Book", "books", "id", [⟨"id", "id", false⟩, ⟨"title", "title", true⟩]⟩,
    ⟨"Tag", "tags", "id", [⟨"id", "id", false⟩, ⟨"name", "label", true⟩]⟩,
    ⟨"BookTag", "book_tags", "id", [⟨"id", "id", false⟩, ⟨"book", "book_id", false⟩, ⟨"tag", "tag_id", false⟩]⟩],
   [⟨"tags", .manyToMany ⟨2⟩ "book" "tag", ⟨0⟩, ⟨1⟩, true, false, some "books", ⟨1⟩⟩,
    ⟨"books", .manyToMany ⟨2⟩ "tag" "book", ⟨1⟩, ⟨0⟩, true, true, some "tags", ⟨0⟩⟩]⟩

/-- The first two books with a tag, by title. -/
def taggedRequest : Request :=
  { root := ⟨0⟩, filters := [.lookup "tags__name" (.scalar (.text "new"))], orderBy := [⟨["title"], false⟩]
    limit := some 2 }

def taggedRegistry : AliasRegistry :=
  ⟨6, [(.through "books" "tags", ⟨"5c1a2e"⟩), (.edge "books" "tags", ⟨"b00c5a"⟩)]⟩

theorem wellScoped_statements_tagged :
    Schema.build taggedEntities taggedRelations = .ok taggedSchema ∧
      taggedRequest.root.index < taggedSchema.entities.length ∧
      ∃ planned registry' p,
        taggedRequest.plan taggedSchema {} taggedRegistry = (.ok planned, registry') ∧
          taggedRequest.prepare taggedSchema taggedRegistry = (.ok p, registry') ∧
          p.PathsDiffer ∧ planned.query.Scoped taggedSchema p.tableNames := by
  have hbuild : Schema.build taggedEntities taggedRelations = .ok taggedSchema := by rfl
  have hroot : taggedRequest.root.index < taggedSchema.entities.length := by decide
  have hplan : (taggedRequest.plan taggedSchema {} taggedRegistry).1.map (·.rootPaginated) = .ok true := by rfl
  obtain ⟨planned, hok, -⟩ := map_eq_ok.mp hplan
  have hpair : taggedRequest.plan taggedSchema {} taggedRegistry =
      (.ok planned, (taggedRequest.plan taggedSchema {} taggedRegistry).2) := Prod.ext hok rfl
  obtain ⟨p, hp, hplain, hscoped⟩ :=
    (wellScoped_statements hbuild hroot taggedRegistry).1 {} planned _ hpair
  have hdiffer := hplain (by decide)
  exact ⟨hbuild, hroot, planned, _, p, hpair, hp, hdiffer, (hscoped hdiffer).2⟩

end RelQuery
