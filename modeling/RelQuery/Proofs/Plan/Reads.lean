import RelQuery.Proofs.Filter.Bound
import RelQuery.Proofs.Join.Scope
import RelQuery.Proofs.Plan

/-!
# What planned statements read

Selected columns, filters and orderings read the tables of paths that are joined because of them. What is said to read
the root only does so, which is what a page without joins relies on.
-/

namespace RelQuery

open Sql

variable {p : Prepared}

/-- The root table, as a table of the statement. -/
def Prepared.rootName (p : Prepared) : String × EntityId := (p.rootTable, p.request.root)

/-- The expression reads columns of these tables of the statement, and the queries in it are scoped. -/
structure Prepared.Reads (p : Prepared) (scope : List (String × EntityId)) (e : Expr) : Prop where
  columns : ∀ ref ∈ e.columns, ∃ n ∈ scope, ref.1 = some n.1 ∧
    ref.2 ∈ (p.schema.entity n.2).columns.map (·.dbName)
  queries : ∀ inner ∈ e.queries, inner.Scoped p.schema p.tableNames

variable {scope : List (String × EntityId)} {e : Expr}

theorem Prepared.Reads.mono {more : List (String × EntityId)} (h : p.Reads scope e) (hsub : scope ⊆ more) :
    p.Reads more e := by
  refine ⟨fun ref href => ?_, h.queries⟩
  obtain ⟨n, hn, hread⟩ := h.columns ref href
  exact ⟨n, hsub hn, hread⟩

theorem Prepared.Reads.readsFrom {tables : List TableRef} (h : p.Reads scope e)
    (hscope : ∀ n ∈ scope, ProvidesEntity p.schema p.tableNames tables n) :
    e.ReadsFrom p.schema p.tableNames tables := by
  intro ref href
  obtain ⟨n, hn, hname, hcolumn⟩ := h.columns ref href
  exact ⟨n.1, hname, hscope n hn ref.2 hcolumn⟩

theorem reads_col {n : String × EntityId} {column : String} (hn : n ∈ scope)
    (hcolumn : column ∈ (p.schema.entity n.2).columns.map (·.dbName)) : p.Reads scope (.col n.1 column) := by
  refine ⟨fun ref href => ?_, fun inner hinner => by cases hinner⟩
  rw [List.mem_singleton.mp href]
  exact ⟨n, hn, rfl, hcolumn⟩

theorem reads_call {name : String} {distinct : Bool} (h : p.Reads scope e) :
    p.Reads scope (.call name distinct [e]) := by
  have hcolumns : (Expr.call name distinct [e]).columns = e.columns := List.append_nil _
  have hqueries : (Expr.call name distinct [e]).queries = e.queries := List.append_nil _
  exact ⟨hcolumns ▸ h.columns, hqueries ▸ h.queries⟩

theorem reads_inQuery {query : Query} {negated : Bool} (h : p.Reads scope e)
    (hquery : query.Scoped p.schema p.tableNames) : p.Reads scope (.inQuery e query negated) :=
  ⟨h.columns, List.forall_mem_cons.mpr ⟨hquery, h.queries⟩⟩

theorem reads_all? {es : List Expr} (he : Expr.all? es = some e) (h : ∀ part ∈ es, p.Reads scope part) :
    p.Reads scope e := by
  constructor
  · intro ref href
    rw [Expr.columns_all? he] at href
    obtain ⟨part, hpart, href⟩ := List.mem_flatMap.mp href
    exact (h part hpart).columns ref href
  · intro inner hinner
    rw [Expr.queries_all? he] at hinner
    obtain ⟨part, hpart, hinner⟩ := List.mem_flatMap.mp hinner
    exact (h part hpart).queries inner hinner

theorem Prepared.Named.reads_rootKey (h : p.Named) : p.Reads [p.rootName] p.rootKey :=
  reads_col (List.mem_singleton_self p.rootName) (h.schema.pk_mem h.root)

theorem reads_rootColumns : ∀ e ∈ p.rootColumns, p.Reads [p.rootName] e := by
  intro e he
  obtain ⟨c, hc, rfl⟩ := List.mem_map.mp he
  exact reads_col (List.mem_singleton_self p.rootName) (List.mem_map_of_mem hc)

theorem rootName_subset : [p.rootName] ⊆ p.tableNames :=
  List.cons_subset.mpr ⟨List.mem_cons_self .., List.nil_subset _⟩

theorem reads_columnItems {n : String × EntityId} (hn : n ∈ p.tableNames) (projection : Projection)
    (label : Option Alias) :
    ∀ item ∈ columnItems n.1 (selectColumns (p.schema.entity n.2) projection label), p.Reads p.tableNames item.expr := by
  intro item hitem
  unfold columnItems selectColumns at hitem
  rw [List.map_map] at hitem
  obtain ⟨c, hc, rfl⟩ := List.mem_map.mp hitem
  exact reads_col hn (List.mem_map_of_mem (List.mem_filter.mp hc).1)

theorem nodesItems_eq_flatMap (nodes : List JoinNode) : nodesItems nodes = nodes.flatMap JoinNode.items := by
  induction nodes with
  | nil => rfl
  | cons node rest ih => rw [nodesItems, ih, List.flatMap_cons]

theorem reads_items (h : p.Named) {partialPaths : List Path} {node : JoinNode}
    (hn : node.Planned ⟨p.schema, p.bound.resolved, p.aliases, p.bound.projection, partialPaths⟩) :
    ∀ item ∈ node.items, p.Reads p.tableNames item.expr := by
  induction hn with
  | @intro r a children mem kept named names below ih =>
    obtain ⟨b, rel, hop⟩ := h.exists_hop mem
    have hsame : b = a := Option.some.inj (hop.aliases.symm.trans named)
    subst hsame
    intro item hitem
    unfold JoinSource.node JoinNode.items at hitem
    rw [nodesItems_eq_flatMap] at hitem
    rcases List.mem_append.mp hitem with hown | hbelow
    · exact reads_columnItems (mem_tableNames mem hop.target_mem) _ _ item hown
    · obtain ⟨child, hchild, hitem⟩ := List.mem_flatMap.mp hbelow
      exact ih child hchild item hitem

theorem reads_selectList (h : p.Named) {registry : AliasRegistry} (hp : PreparedFrom p.schema registry p.request p)
    {t : JoinTree} (ht : p.tree = .ok t) : ∀ item ∈ t.selectList p.rootTable, p.Reads p.tableNames item.expr := by
  obtain ⟨-, hcolumns, -, hplanned⟩ := planned_of_tree hp ht
  intro item hitem
  unfold JoinTree.selectList at hitem
  rw [hcolumns, nodesItems_eq_flatMap] at hitem
  rcases List.mem_append.mp hitem with hroot | hbelow
  · exact reads_columnItems (n := p.rootName) (List.mem_cons_self ..) _ _ item hroot
  · obtain ⟨node, hnode, hitem⟩ := List.mem_flatMap.mp hbelow
    exact reads_items h (hplanned node hnode) item hitem

/-- A column at the end of a joined path is one of the table that the path is named by. -/
theorem reads_qualified (h : p.Named) {path : Path} {column : String}
    (hcolumn : p.schema.HasColumnAt p.request.root path column)
    (hjoined : path ≠ .root → ∃ t ∈ p.bound.resolved, t.path = path) {table : String}
    (htable : p.aliases.qualifier path p.rootTable = .ok table) :
    p.Reads p.tableNames (.col table column) ∧ (path = .root → p.Reads [p.rootName] (.col table column)) := by
  obtain ⟨hops, id, hwalk, hmem⟩ := hcolumn
  by_cases hroot : path = .root
  · subst hroot
    cases hwalk
    cases htable
    have hread : p.Reads [p.rootName] (.col p.rootTable column) := reads_col (List.mem_singleton_self p.rootName) hmem
    exact ⟨hread.mono rootName_subset, fun _ => hread⟩
  · refine ⟨?_, fun he => absurd he hroot⟩
    obtain ⟨t, ht, rfl⟩ := hjoined hroot
    obtain ⟨a, rel, hop⟩ := h.exists_hop ht
    obtain rfl := (h.bound.joined.resolves t ht).target_eq hwalk
    rw [qualifier_of_ne_root hroot hop.aliases] at htable
    cases htable
    exact reads_col (mem_tableNames ht hop.target_mem) hmem

/-- Filters read joined tables, and those that are said to read the root only do so. -/
theorem reads_predicates (h : p.Named) {predicates : List Predicate} (hp : p.predicates = .ok predicates) :
    ∀ pred ∈ predicates, p.Reads p.tableNames pred.expr ∧ (pred.rootOnly = true → p.Reads [p.rootName] pred.expr) := by
  intro pred hpred
  obtain ⟨f, hf, hcompiled⟩ := exists_of_mem_forall₂ (mapM_eq_ok.mp hp) hpred
  obtain ⟨e, he, rfl⟩ := map_eq_ok.mp hcompiled
  have hreads := readsConds_of_expr f e he
  have hqueries : ∀ inner ∈ e.queries, inner.Scoped p.schema p.tableNames := by
    rw [hreads.queries]
    exact fun inner hinner => by cases hinner
  have hqualified : ∀ c ∈ f.conds, ∀ table, p.aliases.qualifier c.path p.rootTable = .ok table →
      p.Reads p.tableNames (.col table c.column) ∧ (c.path = .root → p.Reads [p.rootName] (.col table c.column)) := by
    intro c hc table htable
    refine reads_qualified h (hasColumnAt_of_bindFilters h.bound.filters f hf c hc) (fun hne => ?_) htable
    exact h.bound.joined_of_cond hf hc hne
  refine ⟨⟨fun ref href => ?_, hqueries⟩, fun hrootOnly => ⟨fun ref href => ?_, hqueries⟩⟩
  · obtain ⟨c, hc, table, htable, rfl⟩ := hreads.columns ref href
    exact (hqualified c hc table htable).1.columns _ (List.mem_singleton_self _)
  · obtain ⟨c, hc, table, htable, rfl⟩ := hreads.columns ref href
    have hroot := Path.isRoot_iff.mp (List.all_eq_true.mp hrootOnly c hc)
    exact ((hqualified c hc table htable).2 hroot).columns _ (List.mem_singleton_self _)

/-- Orderings read joined tables, and those of the root path the root. -/
theorem reads_columnExpr (h : p.Named) {o : BoundOrder} (ho : o ∈ p.bound.orders) {e : Expr}
    (he : o.columnExpr p.aliases p.rootTable = .ok e) :
    p.Reads p.tableNames e ∧ (o.path = .root → p.Reads [p.rootName] e) := by
  obtain ⟨table, htable, rfl⟩ := map_eq_ok.mp he
  obtain ⟨spec, -, hspec⟩ := exists_of_mem_forall₂ (mapM_eq_ok.mp h.bound.orders) ho
  refine reads_qualified h (hasColumnAt_of_bindOrder hspec) (fun hne => ?_) htable
  exact h.bound.joined_of_order ho hne

theorem forall_mem_addTieBreak {P : Expr → Prop} {items : List OrderItem} {table column : String}
    (hitems : ∀ item ∈ items, P item.expr) (hcolumn : P (.col table column)) :
    ∀ item ∈ addTieBreak items table column, P item.expr := by
  unfold addTieBreak
  split
  · exact hitems
  · exact List.forall_mem_append.mpr ⟨hitems, List.forall_mem_singleton.mpr hcolumn⟩

theorem reads_orderBy (h : p.Named) {items : List OrderItem} (hi : p.orderBy = .ok items) :
    ∀ item ∈ items, p.Reads p.tableNames item.expr := by
  unfold Prepared.orderBy at hi
  obtain ⟨asked, hasked, hi⟩ := bind_eq_ok.mp hi
  have hstart : ∀ item ∈ p.addRootTieBreak asked, p.Reads p.tableNames item.expr := by
    refine forall_mem_addTieBreak (fun item hitem => ?_) (h.reads_rootKey.mono rootName_subset)
    obtain ⟨o, ho, hitem⟩ := exists_of_mem_forall₂ (mapM_eq_ok.mp hasked) hitem
    obtain ⟨e, he, rfl⟩ := map_eq_ok.mp hitem
    exact (reads_columnExpr h ho he).1
  refine foldlM_keeps (P := fun items => ∀ item ∈ items, p.Reads p.tableNames item.expr) ?_ hstart hi
  intro r hr before after hbefore hstep
  obtain ⟨table, htable, hstep⟩ := bind_eq_ok.mp hstep
  cases hstep
  obtain ⟨a, rel, hop⟩ := h.exists_hop hr
  rw [qualifier_of_ne_root (h.bound.joined.ne_root r hr) hop.aliases] at htable
  cases htable
  have htarget : r.target.index < p.schema.entities.length := hop.target ▸ h.schema.targets rel hop.mem
  exact forall_mem_addTieBreak hbefore (reads_col (mem_tableNames hr hop.target_mem) (h.schema.pk_mem htarget))

/-- The ordering of a page reads joined tables; if no ordering asked for does, it reads the root only. -/
theorem reads_pageOrder (h : p.Named) {items : List OrderItem} (hi : p.pageOrder = .ok items) :
    (∀ item ∈ items, p.Reads p.tableNames item.expr) ∧
      (p.ordersByRelation = false → ∀ item ∈ items, p.Reads [p.rootName] item.expr) := by
  unfold Prepared.pageOrder at hi
  obtain ⟨asked, hasked, hi⟩ := bind_eq_ok.mp hi
  cases hi
  have heach : ∀ item ∈ asked, ∃ o ∈ p.bound.orders, ∃ e, o.columnExpr p.aliases p.rootTable = .ok e ∧
      ∀ scope, p.Reads scope e → p.Reads scope item.expr := by
    intro item hitem
    obtain ⟨o, ho, hitem⟩ := exists_of_mem_forall₂ (mapM_eq_ok.mp hasked) hitem
    obtain ⟨e, he, rfl⟩ := map_eq_ok.mp hitem
    refine ⟨o, ho, e, he, fun scope hread => ?_⟩
    split
    · exact hread
    · split
      · exact reads_call hread
      · exact reads_call hread
  constructor
  · refine forall_mem_addTieBreak (fun item hitem => ?_) (h.reads_rootKey.mono rootName_subset)
    obtain ⟨o, ho, e, he, hread⟩ := heach item hitem
    exact hread _ (reads_columnExpr h ho he).1
  · intro hnone
    refine forall_mem_addTieBreak (fun item hitem => ?_) h.reads_rootKey
    obtain ⟨o, ho, e, he, hread⟩ := heach item hitem
    unfold Prepared.ordersByRelation at hnone
    have hroot : o.path = .root := by
      have hnot := List.any_eq_false.mp hnone o ho
      exact Path.isRoot_iff.mp (by simpa using hnot)
    exact hread _ ((reads_columnExpr h ho he).2 hroot)

end RelQuery
