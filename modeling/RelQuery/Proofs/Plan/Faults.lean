import RelQuery.Proofs.Plan.Exists

/-!
# Requests that are refused

Where a request is refused, something that it names does not resolve, its tables find no aliases of their own, or its
projection leaves out a column that every instance needs.
-/

namespace RelQuery

variable {s : Schema} {r : Request} {err : QueryError}

/-- Whatever filters and orderings read lies along relations. -/
theorem exists_resolved {projection : Projection} {joined : JoinSet} (hjoined : r.bindRelated s projection = .ok joined)
    {filters : List BoundFilter} (hfilters : s.bindFilters r.root r.filters = .ok filters) {orders : List BoundOrder}
    (horders : r.orderBy.mapM (s.bindOrder r.root) = .ok orders) :
    ∃ resolved, ((filters.flatMap BoundFilter.paths ++ orders.map (·.path)).foldl JoinSet.add joined).expanded.mapM
      (s.resolve r.root) = .ok resolved := by
  refine exists_mapM_eq_ok fun path hpath => ?_
  obtain ⟨leaf, hleaf, hpre⟩ := JoinSet.contains_iff.mp (JoinSet.mem_expanded.mp hpath).2
  suffices hresolves : ∃ t, s.resolve r.root leaf = .ok t by
    obtain ⟨t, ht⟩ := hresolves
    exact exists_resolve_of_prefix hpre ht
  have hcolumn : ∀ column, s.HasColumnAt r.root leaf column → ∃ t, s.resolve r.root leaf = .ok t := by
    rintro column ⟨hops, id, hwalk, -⟩
    exact ⟨⟨leaf, hops, id⟩, resolve_eq_ok.mpr ⟨rfl, hwalk⟩⟩
  rcases JoinSet.leaf_of_mem_foldl_add hleaf with hrelated | hread
  · obtain ⟨hpaths, rfl⟩ := bindRelated_eq_ok.mp hjoined
    rcases JoinSet.leaf_of_mem_foldl_add hrelated with hnone | hrelated
    · cases hnone
    · exact hpaths leaf (List.mem_filter.mp hrelated).1
  · rcases List.mem_append.mp hread with hfilter | horder
    · obtain ⟨f, hf, hpath⟩ := List.mem_flatMap.mp hfilter
      obtain ⟨c, hc, rfl⟩ := List.mem_map.mp (List.mem_filter.mp (mem_distinct.mp hpath)).1
      exact hcolumn c.column (hasColumnAt_of_bindFilters hfilters f hf c hc)
    · obtain ⟨o, ho, rfl⟩ := List.mem_map.mp horder
      obtain ⟨spec, -, hspec⟩ := exists_of_mem_forall₂ (mapM_eq_ok.mp horders) ho
      exact hcolumn o.column (hasColumnAt_of_bindOrder hspec)

/-- A request that cannot be bound has a faulty selection, path, lookup or ordering. -/
theorem bind_eq_error_cases (h : r.bind s = .error err) :
    r.bindProjection s = .error err ∨ (∃ projection, r.bindRelated s projection = .error err) ∨
      s.bindFilters r.root r.filters = .error err ∨ ∃ o ∈ r.orderBy, s.bindOrder r.root o = .error err := by
  rcases bind_eq_error.mp h with h | ⟨projection, hprojection, h⟩
  · exact .inl h
  rcases bind_eq_error.mp h with h | ⟨joined, hjoined, h⟩
  · exact .inr (.inl ⟨projection, h⟩)
  rcases bind_eq_error.mp h with h | ⟨filters, hfilters, h⟩
  · exact .inr (.inr (.inl h))
  rcases bind_eq_error.mp h with h | ⟨orders, horders, h⟩
  · exact .inr (.inr (.inr (exists_of_mapM_eq_error h)))
  obtain ⟨resolved, hresolved⟩ := exists_resolved hjoined hfilters horders
  rcases bind_eq_error.mp h with h | ⟨_, -, h⟩
  · rw [hresolved] at h
    cases h
  · cases h

theorem checkEntity_eq_error {p : Projection} {e : Entity} (h : p.checkEntity e = .error err) :
    ∃ c ∈ e.columns, c.nullable = false ∧ c.name ≠ e.pk ∧ p.isIncluded c.name = false ∧
      err = .excludedRequiredField e.name c.name := by
  unfold Projection.checkEntity at h
  split at h
  · rename_i c hc
    cases h
    have hleft := List.find?_some hc
    simp only [Bool.and_eq_true, Bool.not_eq_true', bne_iff_ne] at hleft
    exact ⟨c, List.mem_of_find?_eq_some hc, hleft.1.1, hleft.1.2, hleft.2, rfl⟩
  · cases h

/-- A projection leaves out a column that the instances at a path need. -/
def Projection.Hides (s : Schema) (root : EntityId) (p : Projection) (path : Path) (err : QueryError) : Prop :=
  ∃ hops target, s.walk root path.segments = .ok (hops, target) ∧ ∃ c ∈ (s.entity target).columns,
    c.nullable = false ∧ c.name ≠ (s.entity target).pk ∧ (p.at_ path).isIncluded c.name = false ∧
      err = .excludedRequiredField (s.entity target).name c.name

/-- A refused request cannot be bound, or its tables find no aliases, or its projection hides a column of instances
that must be complete. -/
theorem plan_eq_error_cases (hs : s.WellFormed) (hroot : r.root.index < s.entities.length)
    (hnames : ∀ rel ∈ s.relations, Separable rel.name) {settings : Settings} {registry registry' : AliasRegistry}
    {n : NoResult} (h : r.plan s settings registry = (.error n, registry')) :
    (∃ err, r.bind s = .error err ∧ n = .failed err) ∨ n.isAliasError = true ∨
      ∃ b err, n = .failed err ∧ r.bind s = .ok b ∧
        ∃ path, (path = .root ∨ r.partialPaths.contains path = false) ∧ b.projection.Hides s r.root path err := by
  rw [plan_eq] at h
  obtain ⟨hplan, rfl⟩ := Prod.mk.inj h
  rcases bind_eq_error.mp hplan with hprepare | ⟨p, hprepare, hplan⟩
  · rcases prepare_eq_error.mp (Prod.ext hprepare rfl) with ⟨hbind, -⟩ | ⟨b, hbind, hassign | ⟨aliases, hassign, hcheck⟩⟩
    · exact .inl (NoResult.lift_eq_error.mp hbind)
    · exact .inr (.inl (isAliasError_of_assign hassign))
    obtain ⟨err, hrefused, rfl⟩ := NoResult.lift_eq_error.mp hcheck
    refine .inr (.inr ⟨b, err, rfl, hbind, ?_⟩)
    rcases bind_eq_error.mp hrefused with hcheck | ⟨⟨⟩, -, hcheck⟩
    · obtain ⟨c, hc⟩ := checkEntity_eq_error hcheck
      exact ⟨.root, .inl rfl, [], r.root, rfl, c, hc⟩
    · obtain ⟨t, ht, hcheck⟩ := exists_of_forM_eq_error hcheck
      obtain ⟨c, hc⟩ := checkEntity_eq_error hcheck
      obtain ⟨ht, hcomplete⟩ := List.mem_filter.mp ht
      have hpartial := (Bool.and_eq_true_iff.mp hcomplete).2
      have hresolves := (boundFrom_of_bind hbind).joined.resolves t ht
      exact ⟨t.path, .inr ((Bool.not_eq_true' _).mp hpartial), t.hops, t.target, hresolves, c, hc⟩
  · -- what is prepared is planned
    have hprepare : r.prepare s registry = (.ok p, _) := Prod.ext hprepare rfl
    have hnamed := named_of_prepare hs hroot hprepare (pathsDiffer_of_separable hprepare hnames)
    obtain ⟨planned, hok⟩ := hnamed.exists_plan settings
    rw [hok] at hplan
    cases hplan

end RelQuery
