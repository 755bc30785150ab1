import RelQuery.Proofs.Prefetch.Load
import RelQuery.Proofs.Prefetch.Lookups

/-!
# Faults of running query sets

What stops a query set before its main statement runs, and what stops it only later. Rows are read and backends fail at
run time. All else shows while a statement is planned, and follow-up statements are planned one by one, after those
that their keys come from.
-/

namespace RelQuery

variable {α β σ : Type} {n : NoResult}

/-! ### Faults of statements -/

/-- A result that is no fault, or one that shows only when statements have run. -/
def FailsLate (x : Except QueryError α) : Prop := ∀ err, x = .error err → err.isCompileError = false

theorem FailsLate.ok (a : α) : FailsLate (.ok a) := by
  rintro err ⟨⟩

theorem FailsLate.bind {x : Except QueryError α} {f : α → Except QueryError β} (hx : FailsLate x)
    (hf : ∀ a, FailsLate (f a)) : FailsLate (x >>= f) := by
  intro err h
  rcases bind_eq_error.mp h with h | ⟨a, -, h⟩
  · exact hx err h
  · exact hf a err h

theorem FailsLate.of_lift {x : Except QueryError α} (hx : FailsLate x) (h : NoResult.lift x = .error n) :
    n.isCompileError = false := by
  obtain ⟨err, hfault, rfl⟩ := NoResult.lift_eq_error.mp h
  exact hx err hfault

theorem FailsLate.map {x : Except QueryError α} (hx : FailsLate x) (f : α → β) : FailsLate (x.map f) :=
  fun err h => hx err (map_eq_error.mp h)

namespace Materializer

variable (m : Materializer)

theorem failsLate_construct (id : EntityId) (values : NameMap Value) (skipValidation : Bool) :
    FailsLate (m.construct id values skipValidation) := by
  intro err h
  unfold construct at h
  split at h
  · cases h
  · cases h
    rfl

theorem failsLate_stub (target : EntityId) (key : Value) : FailsLate (m.stub target key) := by
  unfold stub
  split
  · exact .ok _
  · exact (m.failsLate_construct target _ true).map _

theorem failsLate_addStubs (columns : List SelectedColumn) (i : Instance) (relations : List Relation) :
    ∀ loaded, FailsLate (m.addStubs columns i relations loaded) := by
  induction relations with
  | nil => exact fun loaded => .ok loaded
  | cons r rest ih =>
    intro loaded
    unfold addStubs
    split
    · split
      · exact ih loaded
      · split
        · rename_i e he
          rintro err ⟨⟩
          exact m.failsLate_stub _ _ e he
        · exact ih _
    · exact ih loaded

theorem failsLate_assemble (row : Row) (id : EntityId) (columns : List SelectedColumn) (isPartial : Bool)
    {joined : Except QueryError (NameMap Related)} (hjoined : FailsLate joined) :
    FailsLate (m.assemble row id columns isPartial joined) := by
  unfold assemble
  dsimp only
  split
  · refine hjoined.bind fun relations => (m.failsLate_construct id _ isPartial).bind fun i => ?_
    exact (m.failsLate_addStubs columns i _ relations).bind fun _ => .ok _
  · exact .ok none

mutual

theorem failsLate_ofNode (row : Row) : ∀ node : JoinNode, FailsLate (m.ofNode row node)
  | ⟨_, _, _, target, _, _, isPartial, columns, children⟩ => by
    unfold ofNode
    exact m.failsLate_assemble row target columns isPartial (failsLate_ofNodes row children)
termination_by structural node => node

theorem failsLate_ofNodes (row : Row) : ∀ nodes : List JoinNode, FailsLate (m.ofNodes row nodes)
  | [] => by
    unfold ofNodes
    exact .ok []
  | node :: rest => by
    unfold ofNodes
    split
    · rename_i e he
      rintro err ⟨⟩
      exact failsLate_ofNode row node e he
    · exact (failsLate_ofNodes row rest).map _
termination_by structural nodes => nodes

end

theorem failsLate_ofRows (tree : JoinTree) (rows : List Row) : FailsLate (m.ofRows tree rows) := by
  refine FailsLate.map (fun err h => ?_) _
  obtain ⟨row, -, hrow⟩ := exists_of_mapM_eq_error h
  exact m.failsLate_assemble row tree.root tree.columns false (m.failsLate_ofNodes row tree.children) err hrow

end Materializer

section

variable {e : Engine σ} {session session' : Session σ}

theorem executed_of_plan {r : Request} {result : Except NoResult PlannedQuery}
    (h : (e.plan r).exec session = (result, session')) :
    session'.executed = session.executed ∧
      r.plan e.schema e.settings session.registry = (result, session'.registry) := by
  rw [Engine.plan, Run.exec_onRegistry] at h
  obtain ⟨rfl, rfl⟩ := Prod.mk.inj h
  exact ⟨rfl, rfl⟩

theorem isCompileError_of_execute {query : Sql.Query} (h : (e.execute query).exec session = (.error n, session')) :
    n.isCompileError = false := by
  unfold Engine.execute Run.exec at h
  dsimp only at h
  split at h
  · cases h
  · cases h
    rfl

/-- A statement that shows a fault of compiling was not executed: its plan was refused. -/
theorem plan_of_fetch_eq_error {r : Request} (h : (e.fetch r).exec session = (.error n, session'))
    (hn : n.isCompileError = true) : (e.plan r).exec session = (.error n, session') := by
  have hnot : ¬n.isCompileError = false := by simp [hn]
  rcases Run.exec_bind_eq_error.mp h with h | ⟨planned, next, -, h⟩
  · exact h
  rcases Run.exec_bind_eq_error.mp h with h | ⟨rows, last, -, h⟩
  · exact absurd (isCompileError_of_execute h) hnot
  rcases Run.exec_bind_eq_error.mp h with h | ⟨found, _, -, h⟩
  · rw [Run.exec_ofExcept, Prod.mk.injEq] at h
    exact absurd ((e.materializer.failsLate_ofRows planned.tree rows).of_lift h.1) hnot
  · cases h

/-- The statement that loads a node is refused for some keys. -/
def PrefetchNode.FailsToPlan (e : Engine σ) (node : PrefetchNode) (n : NoResult) : Prop :=
  node.isJoined = false ∧ ∃ keys registry registry', keys ≠ [] ∧
    (node.request e.schema keys).plan e.schema e.settings registry = (.error n, registry')

end

section

variable {e : Engine σ}

mutual

/-- Where loading a node shows a fault of compiling, the statement of this node or of one below is refused. -/
theorem failsToPlan_of_loadNode (hn : n.isCompileError = true) :
    ∀ (node : PrefetchNode) (parents : List Instance) (session session' : Session σ),
      (loadNode e parents node).exec session = (.error n, session') → ∃ below ∈ node.listed, below.FailsToPlan e n
  | ⟨path, name, relation, isJoined, projection, orderBy, children⟩, parents, session, session', h => by
    have hbelow : ∀ instances next, (loadNodes e instances children).exec next = (.error n, session') →
        ∃ below ∈ PrefetchNode.listed ⟨path, name, relation, isJoined, projection, orderBy, children⟩,
          below.FailsToPlan e n := by
      intro instances next h
      obtain ⟨below, hbelow, hfails⟩ := failsToPlan_of_loadNodes hn children instances next session' h
      exact ⟨below, PrefetchNode.mem_listed.mpr (.inr hbelow), hfails⟩
    cases hjoined : isJoined with
    | true =>
      rw [hjoined, loadNode_of_joined rfl] at h
      rcases Run.exec_bind_eq_error.mp h with h | ⟨_, _, -, h⟩
      · exact hjoined ▸ hbelow _ _ h
      · cases h
    | false =>
      rw [hjoined] at h
      by_cases hkeys : (e.schema.relation relation).parentKeys e.schema parents = []
      · rw [loadNode_of_unasked rfl hkeys] at h
        cases h
      rw [loadNode_of_asked rfl rfl hkeys] at h
      rcases Run.exec_bind_eq_error.mp h with h | ⟨⟨instances, planned⟩, _, -, h⟩
      · obtain ⟨-, hplan⟩ := executed_of_plan (plan_of_fetch_eq_error h hn)
        exact ⟨_, PrefetchNode.mem_listed.mpr (.inl rfl), rfl, _, _, _, hkeys, hplan⟩
      · dsimp only at h
        split at h
        · cases h
        · rcases Run.exec_bind_eq_error.mp h with h | ⟨_, _, -, h⟩
          · exact hjoined ▸ hbelow _ _ h
          · cases h
termination_by structural node => node

theorem failsToPlan_of_loadNodes (hn : n.isCompileError = true) :
    ∀ (nodes : List PrefetchNode) (parents : List Instance) (session session' : Session σ),
      (loadNodes e parents nodes).exec session = (.error n, session') →
        ∃ below ∈ nodesListed nodes, below.FailsToPlan e n
  | [], _, _, _, h => by
    cases h
  | node :: rest, parents, session, session', h => by
    rw [loadNodes_cons] at h
    rcases Run.exec_bind_eq_error.mp h with h | ⟨_, next, -, h⟩
    · obtain ⟨below, hbelow, hfails⟩ := failsToPlan_of_loadNode hn node parents session session' h
      exact ⟨below, List.mem_append_left _ hbelow, hfails⟩
    · rcases Run.exec_bind_eq_error.mp h with h | ⟨_, _, -, h⟩
      · obtain ⟨below, hbelow, hfails⟩ := failsToPlan_of_loadNodes hn rest parents next session' h
        exact ⟨below, List.mem_append_right _ hbelow, hfails⟩
      · cases h
termination_by structural nodes => nodes

end

theorem failsToPlan_of_prefetch (hn : n.isCompileError = true) {plan : PrefetchPlan} {roots : List Instance}
    {session session' : Session σ} (h : (prefetch e plan roots).exec session = (.error n, session')) :
    ∃ node ∈ nodesListed plan, node.FailsToPlan e n := by
  unfold prefetch at h
  split at h
  · cases h
  · rcases Run.exec_bind_eq_error.mp h with h | ⟨_, _, -, h⟩
    · exact failsToPlan_of_loadNodes hn plan roots session session' h
    · cases h

end

/-! ### Faults of query sets -/

namespace QuerySet

variable {q : QuerySet} {e : Engine σ} {session session' : Session σ}

/-- The main statement of a query set is planned, and the statement of one of the relations loaded after it is refused.
In a schema whose names can be written into lookups it is refused for an ordering of the query set, for a column that
the projection of the query set hides, or for want of an alias. -/
def RefusedLate (q : QuerySet) (e : Engine σ) (session : Session σ) (n : NoResult) : Prop :=
  ∃ request later planned next plan node,
    q.request e.schema = .ok (request, later) ∧ (e.plan request).exec session = (.ok planned, next) ∧
      prefetchPlan e.schema request planned later = .ok plan ∧ q.OrdersAt request planned plan ∧
        node ∈ nodesListed plan ∧ node.projection = planned.projection.at_ node.path ∧ node.FailsToPlan e n ∧
          (e.schema.WritesNames → node.Refused e.schema n)

/-- Nothing was executed, unless the fault is that of a statement that loads relations. -/
def SurfacesFirst (q : QuerySet) (e : Engine σ) (session session' : Session σ) (n : NoResult) : Prop :=
  session'.executed = session.executed ∨ q.RefusedLate e session n

theorem surfacesFirst_of_all (hs : e.schema.WellFormed) (hlinked : e.schema.Linked)
    (hn : n.isCompileError = true) (h : (q.all e).exec session = (.error n, session')) :
    q.SurfacesFirst e session session' n := by
  rcases Run.exec_bind_eq_error.mp h with h | ⟨⟨request, later⟩, start, hask, h⟩
  · obtain ⟨-, rfl⟩ := Prod.mk.inj h
    exact .inl rfl
  obtain ⟨hrequest, rfl⟩ := Run.exec_ofExcept_eq_ok.mp hask
  rcases Run.exec_bind_eq_error.mp h with h | ⟨⟨instances, planned⟩, fetched, hfetch, h⟩
  · exact .inl (executed_of_plan (plan_of_fetch_eq_error h hn)).1
  obtain ⟨planned', next, hplanned, hfetch⟩ := Run.exec_bind_eq_ok.mp hfetch
  obtain ⟨rows, _, -, hfetch⟩ := Run.exec_bind_eq_ok.mp hfetch
  obtain ⟨found, _, -, hfetch⟩ := Run.exec_bind_eq_ok.mp hfetch
  cases hfetch
  -- Once the main statement has run, the plan of the others can be built.
  obtain ⟨hpaths, rfl, rfl⟩ := request_eq_ok hrequest
  obtain ⟨plan, hplan⟩ := exists_build hpaths planned.tree planned.projection (q.orderBy.filter q.defers)
  have hbuild : prefetchPlan e.schema (q.mainRequest e.schema) planned (q.orderBy.filter q.defers) = .ok plan := hplan
  rcases Run.exec_bind_eq_error.mp h with h | ⟨plan', last, hprefetch, h⟩
  · rw [Run.exec_ofExcept, hbuild] at h
    cases h
  obtain ⟨hplan', rfl⟩ := Run.exec_ofExcept_eq_ok.mp hprefetch
  obtain rfl := Except.ok.inj (hbuild.symm.trans hplan')
  obtain ⟨node, hnode, hfails⟩ := failsToPlan_of_prefetch hn h
  obtain ⟨parent, id, hops, -, hcovers⟩ := (nodesCover_build hplan).of_mem_listed hnode
  obtain ⟨hmem, -, -⟩ := relation_of_findRelation? hcovers.follows.found
  refine .inr ⟨_, _, planned, next, plan, node, hrequest, hplanned, hbuild, ordersAt_of_prefetchPlan hrequest hbuild,
    hnode, hcovers.follows.shows, hfails, fun hnames => ?_⟩
  obtain ⟨-, keys, registry, registry', -, hrefused⟩ := hfails
  exact refused_of_plan hs hlinked hnames hmem hrefused

theorem failsLate_single (name : String) (found : List Instance) : FailsLate (single name found) := by
  intro err h
  unfold single at h
  split at h
  · cases h
  · cases h
    rfl
  · cases h
    rfl

/-- A fault of compiling shows before a query set has executed anything, or else it is the fault of a statement that
loads relations. -/
theorem surfacesFirst_of_isCompileError {entities : List EntityDecl} {relations : List RelationDecl}
    (hbuild : Schema.build entities relations = .ok e.schema) (hn : n.isCompileError = true) :
    ((q.all e).exec session = (.error n, session') → q.SurfacesFirst e session session' n) ∧
      ((q.get e).exec session = (.error n, session') → q.SurfacesFirst e session session' n) ∧
        ((q.get? e).exec session = (.error n, session') → q.SurfacesFirst e session session' n) ∧
          ((q.first e).exec session = (.error n, session') → q.firstOnly.SurfacesFirst e session session' n) := by
  have hnot : ¬n.isCompileError = false := by simp [hn]
  have hall : ∀ q : QuerySet, (q.all e).exec session = (.error n, session') →
      q.SurfacesFirst e session session' n := fun q =>
    surfacesFirst_of_all (wellFormed_build hbuild) (linked_build hbuild) hn
  have hsingle : ∀ {found : List Instance} {next : Session σ},
      ¬(Run.ofExcept (single (q.rootName e) found)).exec next = (.error n, session') := by
    intro found next h
    rw [Run.exec_ofExcept, Prod.mk.injEq] at h
    exact hnot ((failsLate_single _ _).of_lift h.1)
  refine ⟨hall q, fun h => ?_, fun h => ?_, fun h => ?_⟩
  · rcases Run.exec_bind_eq_error.mp h with h | ⟨found, next, -, h⟩
    · exact hall q h
    · exact absurd h hsingle
  · rcases Run.exec_bind_eq_error.mp h with h | ⟨found, next, -, h⟩
    · exact hall q h
    · split at h
      · cases h
      · rcases Run.exec_bind_eq_error.mp h with h | ⟨_, _, -, h⟩
        · exact absurd h hsingle
        · cases h
  · rcases Run.exec_bind_eq_error.mp h with h | ⟨found, next, -, h⟩
    · exact hall q.firstOnly h
    · split at h
      · cases h
      · cases h
        cases hn

/-- An engine whose backend answers everything with the first author. -/
def firstAuthorEngine : Engine Unit where
  schema := authorSchema
  settings := {}
  factory := .standard
  backend := ⟨fun _ state => (.ok [[("id", .int 1)]], state)⟩

/-- The authors, with their books by a field that they do not have. -/
def booksByUnknown : QuerySet :=
  { root := ⟨0⟩, prefetchRelated := [⟨["books"]⟩], orderBy := [⟨["books", "nope"], false⟩] }

theorem surfacesFirst_authors :
    let unknownFirst : QuerySet := { root := ⟨0⟩, orderBy := [⟨["nope"], false⟩] }
    Schema.build authorEntities authorRelations = .ok firstAuthorEngine.schema ∧
      (NoResult.failed (.unknownField "Author" "nope")).isCompileError = true ∧
        ∃ session', (unknownFirst.all firstAuthorEngine).exec ⟨authorRegistry, (), []⟩ =
            (.error (.failed (.unknownField "Author" "nope")), session') ∧
          unknownFirst.SurfacesFirst firstAuthorEngine ⟨authorRegistry, (), []⟩ session'
            (.failed (.unknownField "Author" "nope")) := by
  intro unknownFirst
  have hbuild : Schema.build authorEntities authorRelations = .ok firstAuthorEngine.schema := by rfl
  have hfault : ((unknownFirst.all firstAuthorEngine).exec ⟨authorRegistry, (), []⟩).1.map List.length =
      .error (.failed (.unknownField "Author" "nope")) := by decide +kernel
  have hpair : (unknownFirst.all firstAuthorEngine).exec ⟨authorRegistry, (), []⟩ =
      (.error (.failed (.unknownField "Author" "nope")), _) := Prod.ext (map_eq_error.mp hfault) rfl
  exact ⟨hbuild, rfl, _, hpair, (surfacesFirst_of_isCompileError hbuild rfl).1 hpair⟩

/-- An ordering below a prefetched relation is read only when the authors are there already. -/
theorem unknown_ordering_surfaces_late :
    Schema.build authorEntities authorRelations = .ok firstAuthorEngine.schema ∧
      (NoResult.failed (.unknownField "Book" "nope")).isCompileError = true ∧
        ((booksByUnknown.all firstAuthorEngine).exec ⟨authorRegistry, (), []⟩).1.map List.length =
            .error (.failed (.unknownField "Book" "nope")) ∧
          ((booksByUnknown.all firstAuthorEngine).exec ⟨authorRegistry, (), []⟩).2.executed.length = 1 :=
  ⟨by rfl, rfl, by decide +kernel, by decide +kernel⟩

end QuerySet

end RelQuery
