import RelQuery.Proofs.Join.Tree

/-!
# Planned requests

A plan succeeds when all its parts do: the tree, the joins, the filters, the ordering and the query made of them.
-/

namespace RelQuery

open Sql

theorem plan_eq_ok {p : Prepared} {settings : Settings} {planned : PlannedQuery} (h : p.plan settings = .ok planned) :
    ∃ joins predicates orderBy, p.tree = .ok planned.tree ∧ p.joins = .ok joins ∧ p.predicates = .ok predicates ∧
      p.orderBy = .ok orderBy ∧ p.query settings planned.tree joins predicates orderBy = .ok planned.query := by
  unfold Prepared.plan at h
  obtain ⟨tree, htree, h⟩ := bind_eq_ok.mp h
  obtain ⟨joins, hjoins, h⟩ := bind_eq_ok.mp h
  obtain ⟨predicates, hpredicates, h⟩ := bind_eq_ok.mp h
  obtain ⟨orderBy, horderBy, h⟩ := bind_eq_ok.mp h
  obtain ⟨query, hquery, h⟩ := bind_eq_ok.mp h
  cases h
  exact ⟨joins, predicates, orderBy, htree, hjoins, hpredicates, horderBy, hquery⟩

theorem projection_of_plan {p : Prepared} {settings : Settings} {planned : PlannedQuery}
    (h : p.plan settings = .ok planned) : planned.projection = p.bound.projection := by
  unfold Prepared.plan at h
  obtain ⟨_, -, h⟩ := bind_eq_ok.mp h
  obtain ⟨_, -, h⟩ := bind_eq_ok.mp h
  obtain ⟨_, -, h⟩ := bind_eq_ok.mp h
  obtain ⟨_, -, h⟩ := bind_eq_ok.mp h
  obtain ⟨_, -, h⟩ := bind_eq_ok.mp h
  cases h
  rfl

/-- A planned join compares a column of one table with a column of another. -/
theorem eq_leftJoin_of_joins {p : Prepared} {js : List Join} (hjs : p.joins = .ok js) : ∀ j ∈ js, ∃ table label source c target d,
    j = leftJoin table label (.col source c) (.col target d) := by
  unfold Prepared.joins at hjs
  obtain ⟨jss, hjss, rfl⟩ := map_eq_ok.mp hjs
  intro j hj
  obtain ⟨js, hjs, hj⟩ := List.mem_flatten.mp hj
  obtain ⟨r, -, hr⟩ := exists_of_mem_forall₂ (mapM_eq_ok.mp hjss) hjs
  unfold ResolvedPath.joins at hr
  obtain ⟨source, -, hr⟩ := bind_eq_ok.mp hr
  obtain ⟨target, -, hr⟩ := bind_eq_ok.mp hr
  cases hr
  unfold Relation.joins at hj
  dsimp only at hj
  split at hj
  · exact ⟨_, _, _, _, _, _, List.mem_singleton.mp hj⟩
  · exact ⟨_, _, _, _, _, _, List.mem_singleton.mp hj⟩
  · -- by way of the linking table
    rcases List.mem_pair.mp hj with hmiddle | hfar
    · exact ⟨_, _, _, _, _, _, hmiddle⟩
    · exact ⟨_, _, _, _, _, _, hfar⟩

/-- The query of the keys of a page. -/
def Prepared.keysOf (p : Prepared) (page : Query) : Query :=
  { Query.empty with
    select := [⟨.col pageLabel p.rootEntity.pkColumn.dbName, none⟩], table := some (.ofQuery page pageLabel) }

/-- What is planned reads its rows from the root table, from a page in its place, or from the root rows of a page. -/
theorem query_cases {p : Prepared} {settings : Settings} {tree : JoinTree} {joins : List Join}
    {predicates : List Predicate} {orderBy : List OrderItem} {q : Query}
    (h : p.query settings tree joins predicates orderBy = .ok q) :
    (p.paginatesRoot = false ∧
        q = { Query.empty with
          select := tree.selectList p.rootTable, joins, orderBy, table := some (.ofTable p.rootTable)
          condition := Expr.all? (predicates.map (·.expr)), bounds := LimitOffset.of? p.request.limit p.request.offset }) ∨
      (p.paginatesRoot = true ∧ ∃ page, p.page joins predicates (p.rootColumns.map fun e => ⟨e, none⟩) = .ok page ∧
        q = { Query.empty with
          select := tree.selectList p.rootTable, joins, orderBy, table := some (.ofQuery page p.rootTable)
          condition := Expr.all? ((predicates.filter (!·.rootOnly)).map (·.expr)) }) ∨
      (p.paginatesRoot = true ∧ ∃ page, p.page joins predicates [⟨p.rootKey, none⟩] = .ok page ∧
        q = { Query.empty with
          select := tree.selectList p.rootTable, joins, orderBy, table := some (.ofTable p.rootTable)
          condition := Expr.all? (predicates.map (·.expr) ++ [.inQuery p.rootKey (p.keysOf page) false]) }) := by
  unfold Prepared.query at h
  dsimp only at h
  split at h
  · rename_i hplain
    cases h
    exact .inl ⟨(Bool.not_eq_true' _).mp hplain, rfl⟩
  rename_i hpaged
  rw [Bool.not_eq_true', Bool.not_eq_false] at hpaged
  split at h
  · obtain ⟨page, hpage, h⟩ := bind_eq_ok.mp h
    cases h
    exact .inr (.inl ⟨hpaged, page, hpage, rfl⟩)
  · obtain ⟨page, hpage, h⟩ := bind_eq_ok.mp h
    cases h
    exact .inr (.inr ⟨hpaged, page, hpage, rfl⟩)

theorem query_of_unpaged {p : Prepared} {settings : Settings} {tree : JoinTree} {joins : List Join}
    {predicates : List Predicate} {orderBy : List OrderItem} {q : Query}
    (h : p.query settings tree joins predicates orderBy = .ok q) (hplain : p.paginatesRoot = false) :
    q = { Query.empty with
      select := tree.selectList p.rootTable, joins, orderBy, table := some (.ofTable p.rootTable)
      condition := Expr.all? (predicates.map (·.expr)), bounds := LimitOffset.of? p.request.limit p.request.offset } := by
  rcases query_cases h with ⟨-, hq⟩ | ⟨hpaged, -⟩ | ⟨hpaged, -⟩
  · exact hq
  · rw [hplain] at hpaged
    cases hpaged
  · rw [hplain] at hpaged
    cases hpaged

variable {s : Schema} {registry registry' : AliasRegistry} {r : Request}

/-- A request is prepared first, and planning what was prepared registers no more aliases. -/
theorem plan_eq (r : Request) (s : Schema) (settings : Settings) (registry : AliasRegistry) :
    r.plan s settings registry =
      ((r.prepare s registry).1 >>= fun p => NoResult.lift (p.plan settings), (r.prepare s registry).2) := by
  unfold Request.plan
  rcases r.prepare s registry with ⟨err | p, registry'⟩ <;> rfl

theorem planCount_eq (r : Request) (s : Schema) (registry : AliasRegistry) :
    r.planCount s registry =
      ((r.prepare s registry).1 >>= fun p => NoResult.lift p.countQuery, (r.prepare s registry).2) := by
  unfold Request.planCount
  rcases r.prepare s registry with ⟨err | p, registry'⟩ <;> rfl

theorem planRequest_eq_ok {settings : Settings} {planned : PlannedQuery} :
    r.plan s settings registry = (.ok planned, registry') ↔
      ∃ p, r.prepare s registry = (.ok p, registry') ∧ p.plan settings = .ok planned := by
  rw [plan_eq]
  rcases r.prepare s registry with ⟨err | p, registry₁⟩
  · simp [Bind.bind, Except.bind]
  · simp [Bind.bind, Except.bind, NoResult.lift_eq_ok, and_comm]

theorem prepared_of_plan {settings : Settings} {planned : PlannedQuery}
    (h : r.plan s settings registry = (.ok planned, registry')) :
    ∃ p, PreparedFrom s registry r p ∧ p.plan settings = .ok planned := by
  obtain ⟨p, hp, hplan⟩ := planRequest_eq_ok.mp h
  exact ⟨p, preparedFrom_of_prepare hp, hplan⟩

end RelQuery
