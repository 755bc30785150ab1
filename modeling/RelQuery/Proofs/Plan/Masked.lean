import RelQuery.Proofs.Filter.Masked
import RelQuery.Proofs.Plan.Scope

/-!
# Plans without their values

Two requests whose filters differ in nothing but values are planned alike: they are refused for the same reason, or
have statements with the same text, sliced along the same tree. What a user compares with is found in the parameters
and nowhere else.
-/

namespace RelQuery

open Sql

variable {s : Schema} {r : Request} {fs : List Filter} {bs bs' : List BoundFilter}

/-- The paths to join do not depend on values. -/
theorem bind_withFilters (hbs : s.bindFilters r.root r.filters = .ok bs) (hbs' : s.bindFilters r.root fs = .ok bs')
    (hsame : bs.map BoundFilter.masked = bs'.map BoundFilter.masked) :
    ({ r with filters := fs } : Request).bind s = (r.bind s).map fun b => { b with filters := bs' } := by
  have hpaths : bs.flatMap BoundFilter.paths = bs'.flatMap BoundFilter.paths := by
    have hmasked : ∀ l : List BoundFilter,
        l.flatMap BoundFilter.paths = (l.map BoundFilter.masked).flatMap BoundFilter.paths := by
      intro l
      rw [List.flatMap_map]
      exact List.flatMap_congr fun f _ => (paths_masked f).symm
    rw [hmasked bs, hsame, ← hmasked bs']
  have hprojection : ({ r with filters := fs } : Request).bindProjection s = r.bindProjection s := rfl
  have hrelated : ({ r with filters := fs } : Request).bindRelated s = r.bindRelated s := rfl
  unfold Request.bind
  rw [hprojection, hrelated, hbs, hbs']
  simp only [bind, Except.bind, hpaths]
  rcases r.bindProjection s with err | projection
  · rfl
  dsimp only
  rcases r.bindRelated s projection with err | joined
  · rfl
  dsimp only
  rcases r.orderBy.mapM (s.bindOrder r.root) with err | orders
  · rfl
  dsimp only
  rcases ((bs'.flatMap BoundFilter.paths ++ orders.map BoundOrder.path).foldl JoinSet.add joined).expanded.mapM
    (s.resolve r.root) with err | resolved <;> rfl

/-- The prepared request with other filters. -/
def Prepared.withFilters (p : Prepared) (fs : List Filter) (bs : List BoundFilter) : Prepared :=
  { p with request := { p.request with filters := fs }, bound := { p.bound with filters := bs } }

theorem prepare_withFilters (hbs : s.bindFilters r.root r.filters = .ok bs)
    (hbs' : s.bindFilters r.root fs = .ok bs') (hsame : bs.map BoundFilter.masked = bs'.map BoundFilter.masked)
    (registry : AliasRegistry) :
    ({ r with filters := fs } : Request).prepare s registry =
      ((r.prepare s registry).1.map (·.withFilters fs bs'), (r.prepare s registry).2) := by
  unfold Request.prepare
  rw [bind_withFilters hbs hbs' hsame]
  rcases r.bind s with err | bound
  · rfl
  dsimp only [Except.map]
  rcases AliasPlan.assign registry s (s.entity r.root).table bound.resolved with ⟨err | aliases, registry'⟩
  · rfl
  dsimp only
  refine Prod.ext ?_ rfl
  change NoResult.lift (Except.map _ ((⟨s, r, bound, aliases⟩ : Prepared).checkRequired)) =
    Except.map _ (NoResult.lift (Except.map _ ((⟨s, r, bound, aliases⟩ : Prepared).checkRequired)))
  rw [← NoResult.lift_map, map_map]
  rfl

/-- Expressions that are the same when masked have the same conjunction when masked. -/
theorem masked_condition {es es' : List Expr} (h : es.map Expr.masked = es'.map Expr.masked) :
    optionalExprMasked (Expr.all? es) = optionalExprMasked (Expr.all? es') := by
  rw [optionalExprMasked_eq_map, optionalExprMasked_eq_map, map_masked_all?, map_masked_all?, h]

theorem masked_condition_inQuery {es es' : List Expr} (h : es.map Expr.masked = es'.map Expr.masked) {key : Expr}
    {q q' : Query} (hquery : q.masked = q'.masked) :
    optionalExprMasked (Expr.all? (es ++ [.inQuery key q false])) =
      optionalExprMasked (Expr.all? (es' ++ [.inQuery key q' false])) := by
  refine masked_condition ?_
  rw [List.map_append, List.map_append, h, List.map_singleton, List.map_singleton, Expr.masked, hquery, Expr.masked]

variable {ps ps' : List Predicate}

theorem masked_exprs (h : ps.map Predicate.masked = ps'.map Predicate.masked) :
    (ps.map (·.expr)).map Expr.masked = (ps'.map (·.expr)).map Expr.masked := by
  have hexpr : ∀ l : List Predicate, (l.map (·.expr)).map Expr.masked = (l.map Predicate.masked).map (·.expr) := by
    intro l
    rw [List.map_map, List.map_map]
    rfl
  rw [hexpr, h, hexpr]

theorem masked_filter (h : ps.map Predicate.masked = ps'.map Predicate.masked) (keep : Bool → Bool) :
    (ps.filter fun p => keep p.rootOnly).map Predicate.masked =
      (ps'.filter fun p => keep p.rootOnly).map Predicate.masked := by
  have hfilter : ∀ l : List Predicate, (l.filter fun p => keep p.rootOnly).map Predicate.masked =
      (l.map Predicate.masked).filter fun p => keep p.rootOnly := by
    intro l
    rw [List.filter_map]
    rfl
  rw [hfilter, h, hfilter]

variable {p : Prepared}

theorem masked_pageRows (h : ps.map Predicate.masked = ps'.map Predicate.masked) (joins : List Join)
    (select : List SelectItem) :
    (p.pageRows joins ps select).masked = (p.pageRows joins ps' select).masked := by
  have honRoot := masked_exprs (masked_filter h fun rootOnly => rootOnly)
  have honJoined := masked_exprs (masked_filter h fun rootOnly => !rootOnly)
  unfold Prepared.pageRows
  dsimp only
  split
  · simp only [Query.masked, masked_condition (masked_exprs h)]
  · have hempty : ((ps.filter (!·.rootOnly)).map (·.expr)).isEmpty =
        ((ps'.filter (!·.rootOnly)).map (·.expr)).isEmpty := by
      rw [← List.isEmpty_map, honJoined, List.isEmpty_map]
    rw [hempty]
    split
    · simp only [Query.masked, masked_condition honRoot]
    · simp only [Query.masked]
      rw [masked_condition_inQuery honRoot]
      simp only [Query.masked, masked_condition honJoined]

/-- Ordering and bounding keep queries the same that are so when masked. -/
theorem masked_paged {q q' : Query} (h : q.masked = q'.masked) (orderBy : List OrderItem)
    (bounds : Option LimitOffset) :
    ({ q with orderBy, bounds } : Query).masked = ({ q' with orderBy, bounds } : Query).masked := by
  obtain ⟨select, table, joins, condition, groupBy, _, _⟩ := q
  obtain ⟨select', table', joins', condition', groupBy', _, _⟩ := q'
  simp only [Query.masked, Query.mk.injEq, and_true] at h ⊢
  obtain ⟨hselect, htable, hjoins, hcondition, hgroupBy, -⟩ := h
  exact ⟨hselect, htable, hjoins, hcondition, hgroupBy⟩

theorem masked_page (h : ps.map Predicate.masked = ps'.map Predicate.masked) (joins : List Join)
    (select : List SelectItem) :
    (p.page joins ps select).map Query.masked = (p.page joins ps' select).map Query.masked := by
  unfold Prepared.page
  rcases p.pageOrder with err | orderBy
  · rfl
  · exact congrArg Except.ok (masked_paged (masked_pageRows h joins select) orderBy _)

theorem masked_query (h : ps.map Predicate.masked = ps'.map Predicate.masked) (settings : Settings) (tree : JoinTree)
    (joins : List Join) (orderBy : List OrderItem) :
    (p.query settings tree joins ps orderBy).map Query.masked =
      (p.query settings tree joins ps' orderBy).map Query.masked := by
  unfold Prepared.query
  dsimp only
  split
  · refine congrArg Except.ok ?_
    simp only [Query.masked, masked_condition (masked_exprs h)]
  split
  · rcases cases_of_map_eq (masked_page (p := p) h joins (p.rootColumns.map fun e => ⟨e, none⟩)) with
      ⟨err, hpage, hpage'⟩ | ⟨page, page', hpage, hpage', hsame⟩
    · rw [hpage, hpage']
      rfl
    · rw [hpage, hpage']
      refine congrArg Except.ok ?_
      simp only [Query.masked, TableRef.ofQuery, optionalTableMasked, TableRef.masked, TableSource.masked, hsame,
        masked_condition (masked_exprs (masked_filter h fun rootOnly => !rootOnly))]
  · rcases cases_of_map_eq (masked_page (p := p) h joins [⟨p.rootKey, none⟩]) with
      ⟨err, hpage, hpage'⟩ | ⟨page, page', hpage, hpage', hsame⟩
    · rw [hpage, hpage']
      rfl
    · rw [hpage, hpage']
      refine congrArg Except.ok ?_
      simp only [Query.masked]
      rw [masked_condition_inQuery (masked_exprs h)]
      simp only [Query.masked, TableRef.ofQuery, optionalTableMasked, TableRef.masked, TableSource.masked, hsame]

/-- What a plan is besides the values in its statement. -/
def PlannedQuery.masked (planned : PlannedQuery) : PlannedQuery := { planned with query := planned.query.masked }

theorem masked_predicates (hbs : ∀ f ∈ p.bound.filters, ∀ c ∈ f.conds, c.Fits) (hbs' : ∀ f ∈ bs', ∀ c ∈ f.conds, c.Fits)
    (hsame : p.bound.filters.map BoundFilter.masked = bs'.map BoundFilter.masked) (fs : List Filter) :
    p.predicates.map (List.map Predicate.masked) = (p.withFilters fs bs').predicates.map (List.map Predicate.masked) :=
  map_masked_predicates hbs hbs' hsame

theorem masked_plan (hbs : ∀ f ∈ p.bound.filters, ∀ c ∈ f.conds, c.Fits) (hbs' : ∀ f ∈ bs', ∀ c ∈ f.conds, c.Fits)
    (hsame : p.bound.filters.map BoundFilter.masked = bs'.map BoundFilter.masked) (fs : List Filter)
    (settings : Settings) :
    (p.plan settings).map PlannedQuery.masked = ((p.withFilters fs bs').plan settings).map PlannedQuery.masked := by
  have htree : (p.withFilters fs bs').tree = p.tree := rfl
  have hjoins : (p.withFilters fs bs').joins = p.joins := rfl
  have horderBy : (p.withFilters fs bs').orderBy = p.orderBy := rfl
  have hquery : (p.withFilters fs bs').query settings = p.query settings := rfl
  unfold Prepared.plan
  rw [htree, hjoins, horderBy, hquery]
  rcases p.tree with err | tree
  · rfl
  rcases p.joins with err | joins
  · rfl
  rcases cases_of_map_eq (masked_predicates hbs hbs' hsame fs) with ⟨err, hps, hps'⟩ | ⟨ps, ps', hps, hps', hmasked⟩
  · rw [hps, hps']
    rfl
  rw [hps, hps']
  rcases p.orderBy with err | orderBy
  · rfl
  rcases cases_of_map_eq (masked_query (p := p) hmasked settings tree joins orderBy) with
    ⟨err, hq, hq'⟩ | ⟨q, q', hq, hq', hquery⟩
  · change Except.map _ (p.query settings tree joins ps orderBy >>= _) =
      Except.map _ (p.query settings tree joins ps' orderBy >>= _)
    rw [hq, hq']
    rfl
  · change Except.map _ (p.query settings tree joins ps orderBy >>= _) =
      Except.map _ (p.query settings tree joins ps' orderBy >>= _)
    rw [hq, hq']
    exact congrArg (fun query => Except.ok (⟨query, tree, p.bound.projection, p.paginatesRoot⟩ : PlannedQuery)) hquery

theorem masked_countQuery (hbs : ∀ f ∈ p.bound.filters, ∀ c ∈ f.conds, c.Fits)
    (hbs' : ∀ f ∈ bs', ∀ c ∈ f.conds, c.Fits)
    (hsame : p.bound.filters.map BoundFilter.masked = bs'.map BoundFilter.masked) (fs : List Filter) :
    p.countQuery.map Query.masked = (p.withFilters fs bs').countQuery.map Query.masked := by
  have hjoins : (p.withFilters fs bs').joins = p.joins := rfl
  unfold Prepared.countQuery
  rw [hjoins]
  rcases p.joins with err | joins
  · rfl
  rcases cases_of_map_eq (masked_predicates hbs hbs' hsame fs) with ⟨err, hps, hps'⟩ | ⟨ps, ps', hps, hps', hmasked⟩
  · rw [hps, hps']
    rfl
  · rw [hps, hps']
    have hcondition := masked_condition (masked_exprs hmasked)
    exact congrArg (fun condition => Except.ok
      (⟨selectMasked [⟨p.rootKey.countDistinct, some "count"⟩], optionalTableMasked (some (.ofTable p.rootTable)),
        joinsMasked joins, condition, [], [], none⟩ : Query)) hcondition

/-- Both computations leave the same registry, and fail alike or give results that are the same in the given sense. -/
def SameOutcome {α : Type} (same : α → α → Prop) (x y : Except NoResult α × AliasRegistry) : Prop :=
  x.2 = y.2 ∧ ((∃ n, x.1 = .error n ∧ y.1 = .error n) ∨ ∃ a b, x.1 = .ok a ∧ y.1 = .ok b ∧ same a b)

/-- Planned alike: sliced along the same tree, with the same text in every dialect and as many parameters. -/
structure PlannedQuery.Alike (a b : PlannedQuery) : Prop where
  tree : a.tree = b.tree
  projection : a.projection = b.projection
  rootPaginated : a.rootPaginated = b.rootPaginated
  texts : ∀ d, (a.statement d).SameText (b.statement d)

theorem sameOutcome_of_prepare {α : Type} {same : α → α → Prop} {rest : Prepared → Except QueryError α}
    {change : Prepared → Prepared} {x : Except NoResult Prepared × AliasRegistry}
    (h : ∀ p, x.1 = .ok p → (∃ err, rest p = .error err ∧ rest (change p) = .error err) ∨
      ∃ a b, rest p = .ok a ∧ rest (change p) = .ok b ∧ same a b) :
    SameOutcome same (x.1 >>= fun p => NoResult.lift (rest p), x.2)
      (x.1.map change >>= fun p => NoResult.lift (rest p), x.2) := by
  rcases x with ⟨n | p, registry⟩
  · exact ⟨rfl, .inl ⟨n, rfl, rfl⟩⟩
  refine ⟨rfl, ?_⟩
  rcases h p rfl with ⟨err, hp, hp'⟩ | ⟨a, b, ha, hb, hab⟩
  · exact .inl ⟨.failed err, NoResult.lift_eq_failed.mpr hp, NoResult.lift_eq_failed.mpr hp'⟩
  · exact .inr ⟨a, b, NoResult.lift_eq_ok.mpr ha, NoResult.lift_eq_ok.mpr hb, hab⟩

/-- Requests that are equal but for values in their filters have the same statements, up to the values of parameters. -/
theorem sameOutcome_of_masked_filters (hbs : s.bindFilters r.root r.filters = .ok bs)
    (hbs' : s.bindFilters r.root fs = .ok bs') (hsame : bs.map BoundFilter.masked = bs'.map BoundFilter.masked)
    (registry : AliasRegistry) :
    (∀ settings, SameOutcome PlannedQuery.Alike (r.plan s settings registry)
        (({ r with filters := fs } : Request).plan s settings registry)) ∧
      SameOutcome (fun q q' => ∀ d, (q.statement d).SameText (q'.statement d)) (r.planCount s registry)
        (({ r with filters := fs } : Request).planCount s registry) := by
  have hprepare := prepare_withFilters hbs hbs' hsame registry
  have hbound : ∀ p, (r.prepare s registry).1 = .ok p → p.bound.filters = bs := by
    intro p hp
    have hfrom := preparedFrom_of_prepare (Prod.ext hp rfl : r.prepare s registry = (.ok p, _))
    exact Except.ok.inj (hfrom.bound.filters.symm.trans hbs)
  constructor
  · intro settings
    rw [plan_eq, plan_eq, hprepare]
    refine sameOutcome_of_prepare fun p hp => ?_
    have hfilters := hbound p hp
    subst hfilters
    rcases cases_of_map_eq (masked_plan (fits_of_bindFilters hbs) (fits_of_bindFilters hbs') hsame fs settings) with
      hfails | ⟨a, b, ha, hb, hab⟩
    · exact .inl hfails
    · refine .inr ⟨a, b, ha, hb, ?_⟩
      simp only [PlannedQuery.masked, PlannedQuery.mk.injEq] at hab
      obtain ⟨hquery, htree, hprojection, hpaginated⟩ := hab
      exact ⟨htree, hprojection, hpaginated, Query.sameText_of_masked hquery⟩
  · rw [planCount_eq, planCount_eq, hprepare]
    refine sameOutcome_of_prepare fun p hp => ?_
    have hfilters := hbound p hp
    subst hfilters
    rcases cases_of_map_eq (masked_countQuery (fits_of_bindFilters hbs) (fits_of_bindFilters hbs') hsame fs) with
      hfails | ⟨q, q', hq, hq', hquery⟩
    · exact .inl hfails
    · exact .inr ⟨q, q', hq, hq', Query.sameText_of_masked hquery⟩

/-- The first two books with one of the tags or with a part of their title, by title. -/
def searchRequest (tags : List Value) (part : String) : Request :=
  { taggedRequest with
    filters := [.or [.lookup "tags__name__in" (.list (tags.map .scalar)),
      .lookup "title__icontains" (.scalar (.text part))]] }

theorem sameOutcome_of_searches :
    let plain := searchRequest [.text "new", .text "old"] "sea"
    let hostile := searchRequest [.int 7, .null] "'; DROP TABLE books; --"
    ∃ bs bs', taggedSchema.bindFilters plain.root plain.filters = .ok bs ∧
      taggedSchema.bindFilters plain.root hostile.filters = .ok bs' ∧
        bs.map BoundFilter.masked = bs'.map BoundFilter.masked ∧
          (plain.plan taggedSchema {} taggedRegistry).1.map (·.rootPaginated) = .ok true ∧
            SameOutcome PlannedQuery.Alike (plain.plan taggedSchema {} taggedRegistry)
              (hostile.plan taggedSchema {} taggedRegistry) := by
  intro plain hostile
  obtain ⟨bs, hbs⟩ : ∃ bs, taggedSchema.bindFilters plain.root plain.filters = .ok bs := ⟨_, rfl⟩
  obtain ⟨bs', hbs'⟩ : ∃ bs', taggedSchema.bindFilters plain.root hostile.filters = .ok bs' := ⟨_, rfl⟩
  have hsame : (taggedSchema.bindFilters plain.root plain.filters).map (List.map BoundFilter.masked) =
      (taggedSchema.bindFilters plain.root hostile.filters).map (List.map BoundFilter.masked) := by rfl
  rw [hbs, hbs'] at hsame
  have hmasked := Except.ok.inj hsame
  have hplan : (plain.plan taggedSchema {} taggedRegistry).1.map (·.rootPaginated) = .ok true := by decide +kernel
  exact ⟨bs, bs', hbs, hbs', hmasked, hplan, (sameOutcome_of_masked_filters hbs hbs' hmasked taggedRegistry).1 {}⟩

end RelQuery
