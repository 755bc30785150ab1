import RelQuery.Proofs.Plan.Scope

/-!
# Requests with other bounds

Bounds are read by the query of a plan alone: requests that differ in nothing else join the same paths under the same
aliases, have the same tree, and are planned all or none.
-/

namespace RelQuery

open Sql

variable {s : Schema} {p : Prepared}

/-- The request with other bounds. -/
def Request.withBounds (r : Request) (limit offset : Option UInt64) : Request := { r with limit, offset }

/-- The prepared request with other bounds. -/
def Prepared.withBounds (p : Prepared) (limit offset : Option UInt64) : Prepared :=
  { p with request := p.request.withBounds limit offset }

theorem prepare_withBounds {registry registry' : AliasRegistry} {r : Request}
    (h : r.prepare s registry = (.ok p, registry')) (limit offset : Option UInt64) :
    (r.withBounds limit offset).prepare s registry = (.ok (p.withBounds limit offset), registry') := by
  obtain ⟨rfl, rfl, hbind, hassign, hcheck⟩ := prepare_eq_ok.mp h
  exact prepare_eq_ok.mpr ⟨rfl, rfl, hbind, hassign, hcheck⟩

theorem exists_pageOrder {items : List OrderItem} (h : p.orderBy = .ok items) : ∃ page, p.pageOrder = .ok page := by
  unfold Prepared.orderBy at h
  obtain ⟨asked, hasked, -⟩ := bind_eq_ok.mp h
  have hcolumns : ∀ o ∈ p.bound.orders, ∃ e, o.columnExpr p.aliases p.rootTable = .ok e := by
    intro o ho
    obtain ⟨item, -, hitem⟩ := exists_of_mem_forall₂ (mapM_eq_ok.mp hasked).flip ho
    obtain ⟨e, he, -⟩ := map_eq_ok.mp hitem
    exact ⟨e, he⟩
  have hitems : ∃ paged, (p.bound.orders.mapM fun o => (o.columnExpr p.aliases p.rootTable).map fun e =>
      if o.path.isRoot then (⟨e, some o.dir⟩ : OrderItem)
      else if o.descending then ⟨e.max, some .desc⟩
      else ⟨e.min, some .asc⟩) = .ok paged :=
    exists_mapM_eq_ok fun o ho => (hcolumns o ho).elim fun e he => ⟨_, map_eq_ok.mpr ⟨e, he, rfl⟩⟩
  obtain ⟨paged, hpaged⟩ := hitems
  exact ⟨p.addRootTieBreak paged, bind_eq_ok.mpr ⟨paged, hpaged, rfl⟩⟩

theorem select_of_query {settings : Settings} {tree : JoinTree} {joins : List Join} {predicates : List Predicate}
    {orderBy : List OrderItem} {query : Query} (h : p.query settings tree joins predicates orderBy = .ok query) :
    query.select = tree.selectList p.rootTable := by
  obtain ⟨-, rfl⟩ | ⟨-, page, -, rfl⟩ | ⟨-, page, -, rfl⟩ := query_cases h <;> rfl

theorem select_of_plan {settings : Settings} {planned : PlannedQuery} (hplan : p.plan settings = .ok planned) :
    planned.query.select = planned.tree.selectList p.rootTable := by
  obtain ⟨_, _, _, -, -, -, -, hquery⟩ := plan_eq_ok hplan
  exact select_of_query hquery

/-- Only names make a plan fail: where all parts of a statement are, it is planned under any settings. -/
theorem exists_plan_of_parts {tree : JoinTree} (htree : p.tree = .ok tree) {joins : List Join}
    (hjoins : p.joins = .ok joins) {predicates : List Predicate} (hpredicates : p.predicates = .ok predicates)
    {orderBy : List OrderItem} (horderBy : p.orderBy = .ok orderBy) (settings : Settings) :
    ∃ planned, p.plan settings = .ok planned ∧ planned.tree = tree ∧
      planned.query.select = tree.selectList p.rootTable := by
  have hexists : ∃ query, p.query settings tree joins predicates orderBy = .ok query := by
    obtain ⟨page, hpage⟩ := exists_pageOrder horderBy
    unfold Prepared.query
    dsimp only
    split
    · exact ⟨_, rfl⟩
    · split <;> exact ⟨_, bind_eq_ok.mpr ⟨_, bind_eq_ok.mpr ⟨page, hpage, rfl⟩, rfl⟩⟩
  obtain ⟨query, hok⟩ := hexists
  refine ⟨⟨query, tree, p.bound.projection, p.paginatesRoot⟩, ?_, rfl, select_of_query hok⟩
  unfold Prepared.plan
  exact bind_eq_ok.mpr ⟨tree, htree, bind_eq_ok.mpr ⟨joins, hjoins, bind_eq_ok.mpr ⟨predicates, hpredicates,
    bind_eq_ok.mpr ⟨orderBy, horderBy, bind_eq_ok.mpr ⟨query, hok, rfl⟩⟩⟩⟩⟩

/-- Whatever its bounds and however pages are written, a request is planned with the same tree and labels. -/
theorem plan_withBounds {settings : Settings} {planned : PlannedQuery} (h : p.plan settings = .ok planned)
    (settings' : Settings) (limit offset : Option UInt64) :
    ∃ planned', (p.withBounds limit offset).plan settings' = .ok planned' ∧ planned'.tree = planned.tree ∧
      planned'.query.select = planned.query.select := by
  obtain ⟨joins, predicates, orderBy, htree, hjoins, hpredicates, horderBy, -⟩ := plan_eq_ok h
  obtain ⟨planned', hplan', htree', hselect⟩ :=
    exists_plan_of_parts (p := p.withBounds limit offset) htree hjoins hpredicates horderBy settings'
  exact ⟨planned', hplan', htree', hselect.trans (select_of_plan h).symm⟩

theorem exists_target_of_joins {r : ResolvedPath} {js : List Join} (hne : r.path ≠ .root)
    (h : r.joins s p.aliases p.rootTable = .ok js) :
    ∃ a, p.aliases.get? r.path = some a ∧ some a.target.text ∈ js.map (·.table.name?) := by
  unfold ResolvedPath.joins at h
  obtain ⟨source, -, h⟩ := bind_eq_ok.mp h
  obtain ⟨target, htarget, h⟩ := bind_eq_ok.mp h
  cases h
  unfold AliasPlan.qualifier at htarget
  rw [if_neg fun hr => hne (Path.isRoot_iff.mp hr)] at htarget
  split at htarget
  · rename_i a ha
    cases htarget
    refine ⟨a, ha, ?_⟩
    unfold Relation.joins
    dsimp only
    split <;> simp [leftJoin, TableRef.aliased, TableRef.name?]
  · cases htarget

/-- Where no two tables of a statement go by one name, the joined paths are told apart by how they are written. -/
theorem pathsDiffer_of_names {js : List Join} (hjoined : JoinedPaths s p.request.root p.bound.resolved)
    (hjs : p.joins = .ok js) (hnames : (js.map (·.table.name?)).Nodup) : p.PathsDiffer := by
  unfold Prepared.joins at hjs
  obtain ⟨jss, hjss, rfl⟩ := map_eq_ok.mp hjs
  have hforall := (List.forall₂_and_left _ _).mpr ⟨hjoined.ne_root, mapM_eq_ok.mp hjss⟩
  unfold Prepared.PathsDiffer
  clear hjoined hjs hjss
  generalize p.bound.resolved = resolved at hforall
  induction hforall with
  | nil => exact List.nodup_nil
  | @cons r js rest jss hr hrest ih =>
    rw [List.flatten_cons, List.map_append, List.nodup_append'] at hnames
    obtain ⟨-, hnodup, hdisjoint⟩ := hnames
    rw [List.map_cons, List.nodup_cons]
    refine ⟨fun hmem => ?_, ih hnodup⟩
    obtain ⟨t, ht, htext⟩ := List.mem_map.mp hmem
    obtain ⟨a, ha, hname⟩ := exists_target_of_joins hr.1 hr.2
    obtain ⟨ks, hks, hne, hjoins⟩ := exists_of_mem_forall₂ hrest.flip ht
    obtain ⟨b, hb, hname'⟩ := exists_target_of_joins hne hjoins
    have hsame : p.aliases.get? t.path = p.aliases.get? r.path := by rw [AliasPlan.get?, AliasPlan.get?, htext]
    have hab : b = a := Option.some.inj (hb.symm.trans (hsame.trans ha))
    refine hdisjoint hname ?_
    rw [← hab, List.map_flatten]
    exact List.mem_flatten.mpr ⟨_, List.mem_map_of_mem hks, hname'⟩

end RelQuery
