import RelQuery.Proofs.Alias.Assign
import RelQuery.Proofs.Join.Rows
import RelQuery.Proofs.Plan.Bounds

/-!
# Planning cannot fail after preparation

A prepared request has an alias for every joined path, joins what its filters and orderings read, and holds only values
that fit their operators. So each later look-up finds what it asks for. What a plan and a count are refused for shows
while the request is prepared, and preparing is the same for both.
-/

namespace RelQuery

open Sql

variable {s : Schema} {p : Prepared} {r : Request} {registry registry' : AliasRegistry}

/-- A bound request with aliases for all joined paths. Paths that are written alike may share them. -/
structure Prepared.Aliased (p : Prepared) : Prop where
  bound : BoundFrom p.schema p.request p.bound
  aliased : ∀ t ∈ p.bound.resolved, ∃ a, p.aliases.get? t.path = some a

theorem PreparedFrom.aliased (h : PreparedFrom s registry r p) : p.Aliased := by
  obtain ⟨rfl, rfl, hbound, ⟨registry'', hassign⟩, -⟩ := h
  refine ⟨hbound, fun t ht => ?_⟩
  have hroot : t.path.isRoot = false :=
    Bool.eq_false_iff.mpr fun hr => hbound.joined.ne_root t ht (Path.isRoot_iff.mp hr)
  obtain ⟨id, hid⟩ := exists_lastHop (hbound.joined.resolves t ht) hroot
  obtain ⟨a, ha, -⟩ := exists_get?_of_assign hassign ht hid
  exact ⟨a, ha⟩

theorem exists_expr {aliases : AliasPlan} {rootTable : String} (f : BoundFilter) :
    (∀ c ∈ f.conds, ∃ e, c.expr aliases rootTable = .ok e) → ∃ e, f.expr aliases rootTable = .ok e := by
  refine BoundFilter.rec
    (motive_1 := fun f => (∀ c ∈ f.conds, ∃ e, c.expr aliases rootTable = .ok e) →
      ∃ e, f.expr aliases rootTable = .ok e)
    (motive_2 := fun fs => (∀ c ∈ BoundFilter.condsOf fs, ∃ e, c.expr aliases rootTable = .ok e) →
      ∃ es, BoundFilter.exprs aliases rootTable fs = .ok es) ?_ ?_ ?_ ?_ ?_ ?_ f
  · exact fun c h => h c (List.mem_singleton_self c)
  · intro items ih h
    obtain ⟨es, hes⟩ := ih h
    exact ⟨_, map_eq_ok.mpr ⟨es, hes, rfl⟩⟩
  · intro items ih h
    obtain ⟨es, hes⟩ := ih h
    exact ⟨_, map_eq_ok.mpr ⟨es, hes, rfl⟩⟩
  · intro item ih h
    obtain ⟨e, he⟩ := ih h
    exact ⟨_, map_eq_ok.mpr ⟨e, he, rfl⟩⟩
  · exact fun _ => ⟨[], rfl⟩
  · intro item rest ihitem ihrest h
    obtain ⟨e, he⟩ := ihitem fun c hc => h c (List.mem_append_left _ hc)
    obtain ⟨es, hes⟩ := ihrest fun c hc => h c (List.mem_append_right _ hc)
    refine ⟨e :: es, ?_⟩
    rw [BoundFilter.exprs, he]
    exact map_eq_ok.mpr ⟨es, hes, rfl⟩

/-- Bound values fit their operators: with names for the tables that it reads, a bound filter has a predicate. -/
theorem exists_predicate {root : EntityId} {filters : List Filter} {bound : List BoundFilter}
    (hbind : s.bindFilters root filters = .ok bound) {f : BoundFilter} (hf : f ∈ bound) {aliases : AliasPlan}
    {rootTable : String} (htables : ∀ c ∈ f.conds, ∃ table, aliases.qualifier c.path rootTable = .ok table) :
    ∃ predicate, f.predicate aliases rootTable = .ok predicate := by
  have hexpr : ∃ e, f.expr aliases rootTable = .ok e := by
    refine exists_expr f fun c hc => ?_
    obtain ⟨_, _, hlookup⟩ := bindLookup_of_bindFilters hbind f hf c hc
    obtain ⟨table, htable⟩ := htables c hc
    obtain ⟨compared, hcompared⟩ := exists_comparison_of_bindLookup hlookup (.col table c.column)
    refine ⟨compared, ?_⟩
    simp only [BoundCond.expr, htable, hcompared]
  obtain ⟨e, he⟩ := hexpr
  exact ⟨_, map_eq_ok.mpr ⟨e, he, rfl⟩⟩

namespace Prepared.Aliased

theorem exists_qualifier (h : p.Aliased) {path : Path} (hpath : path ≠ .root → ∃ t ∈ p.bound.resolved, t.path = path) :
    ∃ table, p.aliases.qualifier path p.rootTable = .ok table := by
  by_cases hne : path = .root
  · exact ⟨p.rootTable, by rw [hne]; rfl⟩
  · obtain ⟨t, ht, rfl⟩ := hpath hne
    obtain ⟨a, ha⟩ := h.aliased t ht
    exact ⟨a.target.text, qualifier_of_ne_root hne ha⟩

theorem exists_nodesBelow (h : p.Aliased) (src : JoinSource) (hresolved : src.resolved = p.bound.resolved)
    (haliases : src.aliases = p.aliases) (levels : Nat) (path : Path) : ∃ nodes, src.nodesBelow levels path = .ok nodes := by
  induction levels generalizing path with
  | zero => exact ⟨[], rfl⟩
  | succ levels ih =>
    refine exists_mapM_eq_ok fun t ht => ?_
    have hmem := (segments_of_mem_stepsFrom (List.mem_filter.mp ht).1).1
    rw [hresolved] at hmem
    obtain ⟨a, ha⟩ := h.aliased t hmem
    obtain ⟨children, hchildren⟩ := ih t.path
    refine ⟨src.node t (t.lastHop?.getD default) a.target children, ?_⟩
    dsimp only
    rw [haliases, ha]
    exact map_eq_ok.mpr ⟨children, hchildren, rfl⟩

theorem exists_tree (h : p.Aliased) : ∃ tree, p.tree = .ok tree := by
  obtain ⟨nodes, hnodes⟩ := h.exists_nodesBelow
    ⟨p.schema, p.bound.resolved, p.aliases, p.bound.projection, p.request.partialPaths⟩ rfl rfl _ .root
  exact ⟨_, map_eq_ok.mpr ⟨nodes, hnodes, rfl⟩⟩

theorem parent_joined (h : p.Aliased) {t : ResolvedPath} (ht : t ∈ p.bound.resolved) (hne : t.parent ≠ .root) :
    ∃ u ∈ p.bound.resolved, u.path = t.parent :=
  h.bound.joined.closed t ht t.parent hne (List.dropLast_prefix _)

theorem exists_joins (h : p.Aliased) : ∃ joins, p.joins = .ok joins := by
  have heach : ∃ joins, (p.bound.resolved.mapM fun t => t.joins p.schema p.aliases p.rootTable) = .ok joins := by
    refine exists_mapM_eq_ok fun t ht => ?_
    have hparent : t.path.parent?.getD .root = t.parent := by
      unfold Path.parent?
      rw [if_neg fun hroot => h.bound.joined.ne_root t ht (Path.isRoot_iff.mp hroot)]
      rfl
    obtain ⟨source, hsource⟩ := h.exists_qualifier (h.parent_joined ht)
    obtain ⟨target, htarget⟩ := h.exists_qualifier fun _ => ⟨t, ht, rfl⟩
    rw [← hparent] at hsource
    exact ⟨_, bind_eq_ok.mpr ⟨source, hsource, bind_eq_ok.mpr ⟨target, htarget, rfl⟩⟩⟩
  obtain ⟨joins, hjoins⟩ := heach
  exact ⟨joins.flatten, map_eq_ok.mpr ⟨joins, hjoins, rfl⟩⟩

theorem exists_predicates (h : p.Aliased) : ∃ predicates, p.predicates = .ok predicates :=
  exists_mapM_eq_ok fun _ hf => exists_predicate h.bound.filters hf fun _ hc =>
    h.exists_qualifier fun hne => h.bound.joined_of_cond hf hc hne

theorem exists_orderBy (h : p.Aliased) : ∃ orderBy, p.orderBy = .ok orderBy := by
  have hitems : ∃ items, (p.bound.orders.mapM fun o => o.item p.aliases p.rootTable) = .ok items := by
    refine exists_mapM_eq_ok fun o ho => ?_
    obtain ⟨table, htable⟩ := h.exists_qualifier fun hne => h.bound.joined_of_order ho hne
    exact ⟨_, map_eq_ok.mpr ⟨_, map_eq_ok.mpr ⟨table, htable, rfl⟩, rfl⟩⟩
  obtain ⟨items, hitems⟩ := hitems
  have hbreaks : ∀ resolved ⊆ p.bound.resolved, ∀ items, ∃ more, resolved.foldlM
      (fun items t => do
        let table ← p.aliases.qualifier t.path p.rootTable
        return addTieBreak items table (p.schema.entity t.target).pkColumn.dbName) items =
      (.ok more : Except QueryError (List OrderItem)) := by
    intro resolved
    induction resolved with
    | nil => exact fun _ items => ⟨items, rfl⟩
    | cons t rest ih =>
      intro hsub items
      obtain ⟨ht, hrest⟩ := List.cons_subset.mp hsub
      obtain ⟨table, htable⟩ := h.exists_qualifier fun _ => ⟨t, ht, rfl⟩
      obtain ⟨more, hmore⟩ := ih hrest (addTieBreak items table (p.schema.entity t.target).pkColumn.dbName)
      exact ⟨more, by rw [List.foldlM_cons]; exact bind_eq_ok.mpr ⟨_, bind_eq_ok.mpr ⟨table, htable, rfl⟩, hmore⟩⟩
  obtain ⟨more, hmore⟩ := hbreaks p.bound.resolved (List.Subset.refl _) (p.addRootTieBreak items)
  exact ⟨more, bind_eq_ok.mpr ⟨items, hitems, hmore⟩⟩

theorem exists_page (h : p.Aliased) (joins : List Join) (predicates : List Predicate) (select : List SelectItem) :
    ∃ page, p.page joins predicates select = .ok page := by
  obtain ⟨items, hitems⟩ := h.exists_orderBy
  obtain ⟨order, horder⟩ := exists_pageOrder hitems
  exact ⟨_, bind_eq_ok.mpr ⟨order, horder, rfl⟩⟩

theorem exists_plan (h : p.Aliased) (settings : Settings) : ∃ planned, p.plan settings = .ok planned := by
  obtain ⟨tree, htree⟩ := h.exists_tree
  obtain ⟨joins, hjoins⟩ := h.exists_joins
  obtain ⟨predicates, hpredicates⟩ := h.exists_predicates
  obtain ⟨orderBy, horderBy⟩ := h.exists_orderBy
  obtain ⟨planned, hplanned, -⟩ := exists_plan_of_parts htree hjoins hpredicates horderBy settings
  exact ⟨planned, hplanned⟩

theorem exists_countQuery (h : p.Aliased) : ∃ query, p.countQuery = .ok query := by
  obtain ⟨joins, hjoins⟩ := h.exists_joins
  obtain ⟨predicates, hpredicates⟩ := h.exists_predicates
  exact ⟨_, bind_eq_ok.mpr ⟨joins, hjoins, bind_eq_ok.mpr ⟨predicates, hpredicates, rfl⟩⟩⟩

end Prepared.Aliased

/-- The paths that the columns of a statement are read at: the root, the joined paths, and those that filters and
orderings name. -/
def Prepared.ReadsAt (p : Prepared) (path : Path) : Prop :=
  path = .root ∨ path ∈ p.bound.resolved.map (·.path) ∨ (∃ f ∈ p.bound.filters, ∃ c ∈ f.conds, c.path = path) ∨
    ∃ o ∈ p.bound.orders, o.path = path

/-- All that is asked of a prepared request has an answer. -/
structure Prepared.Compiles (p : Prepared) : Prop where
  tables : ∀ path, p.ReadsAt path → ∃ table, p.aliases.qualifier path p.rootTable = .ok table
  tree : ∃ tree, p.tree = .ok tree
  joins : ∃ joins, p.joins = .ok joins
  predicates : ∃ predicates, p.predicates = .ok predicates
  orderBy : ∃ orderBy, p.orderBy = .ok orderBy
  page : ∀ joins predicates select, ∃ page, p.page joins predicates select = .ok page
  plan : ∀ settings, ∃ planned, p.plan settings = .ok planned
  count : ∃ query, p.countQuery = .ok query

theorem Prepared.Aliased.compiles (h : p.Aliased) : p.Compiles where
  tables path hpath := by
    refine h.exists_qualifier fun hne => ?_
    rcases hpath with hroot | hjoined | ⟨f, hf, c, hc, rfl⟩ | ⟨o, ho, rfl⟩
    · exact absurd hroot hne
    · exact List.mem_map.mp hjoined
    · exact h.bound.joined_of_cond hf hc hne
    · exact h.bound.joined_of_order ho hne
  tree := h.exists_tree
  joins := h.exists_joins
  predicates := h.exists_predicates
  orderBy := h.exists_orderBy
  page := h.exists_page
  plan := h.exists_plan
  count := h.exists_countQuery

theorem compiles_of_prepare (h : r.prepare s registry = (.ok p, registry')) : p.Compiles :=
  (preparedFrom_of_prepare h).aliased.compiles

variable {n : NoResult}

theorem plan_eq_error_iff (settings : Settings) :
    (r.plan s settings registry).1 = .error n ↔ (r.prepare s registry).1 = .error n := by
  rw [plan_eq, bind_eq_error]
  refine or_iff_left ?_
  rintro ⟨p, hp, hplan⟩
  obtain ⟨planned, hplanned⟩ := (compiles_of_prepare (Prod.ext hp rfl)).plan settings
  rw [hplanned] at hplan
  cases hplan

theorem planCount_eq_error_iff :
    (r.planCount s registry).1 = .error n ↔ (r.prepare s registry).1 = .error n := by
  rw [planCount_eq, bind_eq_error]
  refine or_iff_left ?_
  rintro ⟨p, hp, hcount⟩
  obtain ⟨query, hquery⟩ := (compiles_of_prepare (Prod.ext hp rfl)).count
  rw [hquery] at hcount
  cases hcount

/-- Once a request is prepared nothing fails, so planning its rows and planning their number are refused alike. -/
theorem refused_alike (s : Schema) (r : Request) (registry : AliasRegistry) :
    (∀ p registry', r.prepare s registry = (.ok p, registry') → p.Compiles) ∧
      ∀ settings n, (r.plan s settings registry).1 = .error n ↔ (r.planCount s registry).1 = .error n :=
  ⟨fun _ _ h => compiles_of_prepare h, fun settings _ => (plan_eq_error_iff settings).trans planCount_eq_error_iff.symm⟩

/-- The first books, by a lookup in their tags that reads no column of theirs. -/
def misspelledRequest : Request :=
  { root := ⟨0⟩, selectRelated := [⟨["tags"]⟩], filters := [.lookup "tags__age" (.scalar (.int 1))], limit := some 1 }

theorem refused_alike_tagged :
    (∃ p registry', taggedRequest.prepare taggedSchema taggedRegistry = (.ok p, registry') ∧ p.Compiles) ∧
      (misspelledRequest.plan taggedSchema {} taggedRegistry).1 = .error (.failed (.unknownField "Tag" "age")) ∧
        (misspelledRequest.planCount taggedSchema taggedRegistry).1 = .error (.failed (.unknownField "Tag" "age")) := by
  have hprepared : (taggedRequest.prepare taggedSchema taggedRegistry).1.map (fun _ => ()) = .ok () := by rfl
  have hrefused : (misspelledRequest.planCount taggedSchema taggedRegistry).1.map (fun _ => ()) =
      .error (.failed (.unknownField "Tag" "age")) := by rfl
  obtain ⟨p, hp, -⟩ := map_eq_ok.mp hprepared
  have hpair : taggedRequest.prepare taggedSchema taggedRegistry = (.ok p, _) := Prod.ext hp rfl
  have hcount := map_eq_error.mp hrefused
  refine ⟨⟨p, _, hpair, (refused_alike taggedSchema taggedRequest taggedRegistry).1 p _ hpair⟩, ?_, hcount⟩
  exact ((refused_alike taggedSchema misspelledRequest taggedRegistry).2 {} _).mpr hcount

end RelQuery
