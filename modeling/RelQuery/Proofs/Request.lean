import RelQuery.Proofs.Join.JoinSet
import RelQuery.Proofs.Schema.Resolve
import RelQuery.Request

/-!
# Prepared requests

What is known of a request once it has been bound and its tables have been named: the joined paths resolve, come with
the paths they begin with, and include all that filters and orderings read.
-/

namespace RelQuery

variable {s : Schema}

/-- Paths to join, each after those it begins with. -/
structure JoinedPaths (s : Schema) (root : EntityId) (resolved : List ResolvedPath) : Prop where
  resolves : ∀ r ∈ resolved, r.Resolves s root
  ne_root : ∀ r ∈ resolved, r.path ≠ .root
  nodup : (resolved.map (·.path)).Nodup
  shorterFirst : resolved.Pairwise fun r t => r.path.length ≤ t.path.length
  closed : ∀ r ∈ resolved, ∀ p : Path, p ≠ .root → p.segments <+: r.path.segments → ∃ t ∈ resolved, t.path = p

theorem map_path_of_resolve {root : EntityId} {paths : List Path} {resolved : List ResolvedPath}
    (h : paths.mapM (s.resolve root) = .ok resolved) : resolved.map (·.path) = paths := by
  rw [mapM_eq_ok] at h
  induction h with
  | nil => rfl
  | cons hr _ ih => rw [List.map_cons, ih, (resolve_eq_ok.mp hr).1]

theorem joinedPaths_of_expanded {j : JoinSet} {root : EntityId} {resolved : List ResolvedPath}
    (h : j.expanded.mapM (s.resolve root) = .ok resolved) : JoinedPaths s root resolved := by
  have hpaths := map_path_of_resolve h
  have hmem : ∀ r ∈ resolved, r.path ∈ j.expanded := fun r hr => hpaths ▸ List.mem_map_of_mem hr
  refine ⟨?_, fun r hr => (JoinSet.mem_expanded.mp (hmem r hr)).1, ?_, ?_, ?_⟩
  · intro r hr
    obtain ⟨p, -, hp⟩ := exists_of_mem_forall₂ (mapM_eq_ok.mp h) hr
    exact (resolve_eq_ok.mp hp).2
  · rw [hpaths]
    exact j.nodup_expanded
  · have hshort := pairwise_byLength (distinct (j.leaves.flatMap Path.prefixes))
    rw [← JoinSet.expanded, ← hpaths, List.pairwise_map] at hshort
    exact hshort
  · intro r hr p hne hpre
    have hp := JoinSet.mem_expanded_of_prefix (hmem r hr) hne hpre
    rw [← hpaths] at hp
    exact List.mem_map.mp hp

/-- What a bound request holds, and where it comes from. -/
structure BoundFrom (s : Schema) (r : Request) (b : BoundRequest) : Prop where
  joined : JoinedPaths s r.root b.resolved
  filters : s.bindFilters r.root r.filters = .ok b.filters
  orders : r.orderBy.mapM (s.bindOrder r.root) = .ok b.orders
  /-- The paths that filters and orderings read are joined. -/
  reads : ∀ p ∈ b.filters.flatMap BoundFilter.paths ++ b.orders.map (·.path), p ≠ .root → ∃ t ∈ b.resolved, t.path = p

theorem path_mem_paths {f : BoundFilter} {c : BoundCond} (hc : c ∈ f.conds) (hne : c.path ≠ .root) :
    c.path ∈ f.paths := by
  have hroot : c.path.isRoot = false := Bool.eq_false_iff.mpr fun hr => hne (Path.isRoot_iff.mp hr)
  refine mem_distinct.mpr (List.mem_filter.mpr ⟨List.mem_map_of_mem hc, ?_⟩)
  rw [hroot]
  rfl

namespace BoundFrom

variable {r : Request} {b : BoundRequest}

theorem joined_of_cond (h : BoundFrom s r b) {f : BoundFilter} (hf : f ∈ b.filters) {c : BoundCond} (hc : c ∈ f.conds)
    (hne : c.path ≠ .root) : ∃ t ∈ b.resolved, t.path = c.path :=
  h.reads c.path (List.mem_append_left _ (List.mem_flatMap.mpr ⟨f, hf, path_mem_paths hc hne⟩)) hne

theorem joined_of_order (h : BoundFrom s r b) {o : BoundOrder} (ho : o ∈ b.orders) (hne : o.path ≠ .root) :
    ∃ t ∈ b.resolved, t.path = o.path :=
  h.reads o.path (List.mem_append_right _ (List.mem_map_of_mem ho)) hne

end BoundFrom

/-- The paths that a bound request joins, with all that they begin with: those to load along that the projection keeps,
and those that filters and orderings read. -/
def BoundRequest.reads (r : Request) (b : BoundRequest) : List Path :=
  (r.selectRelated.filter fun path => !b.projection.excludesPath path) ++
    (b.filters.flatMap BoundFilter.paths ++ b.orders.map (·.path))

theorem bindRelated_eq_ok {r : Request} {projection : Projection} {joined : JoinSet} :
    r.bindRelated s projection = .ok joined ↔
      (∀ path ∈ r.selectRelated, ∃ t, s.resolve r.root path = .ok t) ∧
        joined = (r.selectRelated.filter fun path => !projection.excludesPath path).foldl JoinSet.add .empty := by
  unfold Request.bindRelated
  constructor
  · intro h
    obtain ⟨⟨⟩, hresolve, hjoined⟩ := bind_eq_ok.mp h
    cases hjoined
    refine ⟨fun path hpath => ?_, rfl⟩
    obtain ⟨t, ht, -⟩ := map_eq_ok.mp (forM_eq_ok.mp hresolve path hpath)
    exact ⟨t, ht⟩
  · rintro ⟨hresolve, rfl⟩
    refine bind_eq_ok.mpr ⟨(), forM_eq_ok.mpr fun path hpath => ?_, rfl⟩
    obtain ⟨t, ht⟩ := hresolve path hpath
    exact map_eq_ok.mpr ⟨t, ht, rfl⟩

/-- A request is bound just when all that it names resolves; what it then joins are the paths that it reads. -/
theorem bindRequest_eq_ok {r : Request} {b : BoundRequest} :
    r.bind s = .ok b ↔
      r.bindProjection s = .ok b.projection ∧ (∀ path ∈ r.selectRelated, ∃ t, s.resolve r.root path = .ok t) ∧
        s.bindFilters r.root r.filters = .ok b.filters ∧ r.orderBy.mapM (s.bindOrder r.root) = .ok b.orders ∧
          ((b.reads r).foldl JoinSet.add .empty).expanded.mapM (s.resolve r.root) = .ok b.resolved := by
  unfold Request.bind BoundRequest.reads
  constructor
  · intro h
    obtain ⟨projection, hprojection, h⟩ := bind_eq_ok.mp h
    obtain ⟨joined, hjoined, h⟩ := bind_eq_ok.mp h
    obtain ⟨filters, hfilters, h⟩ := bind_eq_ok.mp h
    obtain ⟨orders, horders, h⟩ := bind_eq_ok.mp h
    obtain ⟨resolved, hresolved, h⟩ := bind_eq_ok.mp h
    cases h
    obtain ⟨hrelated, rfl⟩ := bindRelated_eq_ok.mp hjoined
    rw [← List.foldl_append] at hresolved
    exact ⟨hprojection, hrelated, hfilters, horders, hresolved⟩
  · rintro ⟨hprojection, hrelated, hfilters, horders, hresolved⟩
    rw [List.foldl_append] at hresolved
    exact bind_eq_ok.mpr ⟨_, hprojection, bind_eq_ok.mpr ⟨_, bindRelated_eq_ok.mpr ⟨hrelated, rfl⟩,
      bind_eq_ok.mpr ⟨_, hfilters, bind_eq_ok.mpr ⟨_, horders, bind_eq_ok.mpr ⟨_, hresolved, rfl⟩⟩⟩⟩⟩

theorem bindProjection_of_bind {r : Request} {b : BoundRequest} (h : r.bind s = .ok b) :
    r.bindProjection s = .ok b.projection :=
  (bindRequest_eq_ok.mp h).1

theorem mem_joined_of_bind {r : Request} {b : BoundRequest} (h : r.bind s = .ok b) {path : Path} (hne : path ≠ .root) :
    (∃ t ∈ b.resolved, t.path = path) ↔ goThrough (b.reads r) path = true := by
  obtain ⟨-, -, -, -, hresolved⟩ := bindRequest_eq_ok.mp h
  rw [← List.mem_map, map_path_of_resolve hresolved, JoinSet.mem_expanded_iff hne]

theorem boundFrom_of_bind {r : Request} {b : BoundRequest} (h : r.bind s = .ok b) : BoundFrom s r b := by
  obtain ⟨-, -, hfilters, horders, hresolved⟩ := bindRequest_eq_ok.mp h
  refine ⟨joinedPaths_of_expanded hresolved, hfilters, horders, fun p hp hne => ?_⟩
  exact (mem_joined_of_bind h hne).mpr (goThrough_iff.mpr ⟨p, List.mem_append_right _ hp, List.prefix_rfl⟩)

theorem related_joined_of_bind {r : Request} {b : BoundRequest} (h : r.bind s = .ok b) {path : Path}
    (hpath : path ∈ r.selectRelated) (hne : path ≠ .root) (hkept : b.projection.excludesPath path = false) :
    ∃ t ∈ b.resolved, t.path = path := by
  refine (mem_joined_of_bind h hne).mpr (goThrough_iff.mpr ⟨path, List.mem_append_left _ ?_, List.prefix_rfl⟩)
  rw [List.mem_filter, Bool.not_eq_true']
  exact ⟨hpath, hkept⟩

/-- What a prepared request holds, and where it comes from. -/
structure PreparedFrom (s : Schema) (registry : AliasRegistry) (r : Request) (p : Prepared) : Prop where
  schema : p.schema = s
  request : p.request = r
  bound : BoundFrom s r p.bound
  aliases : ∃ registry', AliasPlan.assign registry s (s.entity r.root).table p.bound.resolved = (.ok p.aliases, registry')
  complete : p.checkRequired = .ok ()

/-- A request is prepared just when it is bound, its tables find aliases, and nothing that instances need is hidden. -/
theorem prepare_eq_ok {registry registry' : AliasRegistry} {r : Request} {p : Prepared} :
    r.prepare s registry = (.ok p, registry') ↔
      p.schema = s ∧ p.request = r ∧ r.bind s = .ok p.bound ∧
        AliasPlan.assign registry s (s.entity r.root).table p.bound.resolved = (.ok p.aliases, registry') ∧
          p.checkRequired = .ok () := by
  unfold Request.prepare
  constructor
  · intro h
    split at h
    · cases h
    rename_i b hbind
    split at h
    · cases h
    rename_i aliases registry₁ hassign
    obtain ⟨hok, rfl⟩ := Prod.mk.inj h
    obtain ⟨⟨⟩, hcheck, rfl⟩ := map_eq_ok.mp (NoResult.lift_eq_ok.mp hok)
    exact ⟨rfl, rfl, hbind, hassign, hcheck⟩
  · obtain ⟨schema, request, bound, aliases⟩ := p
    rintro ⟨rfl, rfl, hbind, hassign, hcheck⟩
    simp only [hbind, hassign]
    exact Prod.ext (NoResult.lift_eq_ok.mpr (map_eq_ok.mpr ⟨(), hcheck, rfl⟩)) rfl

/-- A request is refused when it is bound, when its tables find no aliases, or when something needed is hidden. -/
theorem prepare_eq_error {registry registry' : AliasRegistry} {r : Request} {n : NoResult} :
    r.prepare s registry = (.error n, registry') ↔
      NoResult.lift (r.bind s) = .error n ∧ registry' = registry ∨
        ∃ b, r.bind s = .ok b ∧
          (AliasPlan.assign registry s (s.entity r.root).table b.resolved = (.error n, registry') ∨
            ∃ aliases, AliasPlan.assign registry s (s.entity r.root).table b.resolved = (.ok aliases, registry') ∧
              NoResult.lift (⟨s, r, b, aliases⟩ : Prepared).checkRequired = .error n) := by
  unfold Request.prepare
  rcases r.bind s with err | b
  · simp [NoResult.lift, Except.mapError, eq_comm]
  rcases hassign : AliasPlan.assign registry s (s.entity r.root).table b.resolved with ⟨err | aliases, registry₁⟩
  · simp [hassign, NoResult.lift_eq_error]
  · simp [hassign, NoResult.lift_eq_error, map_eq_error, and_comm]

theorem preparedFrom_of_prepare {registry registry' : AliasRegistry} {r : Request} {p : Prepared}
    (h : r.prepare s registry = (.ok p, registry')) : PreparedFrom s registry r p := by
  obtain ⟨hschema, hrequest, hbind, hassign, hcheck⟩ := prepare_eq_ok.mp h
  exact ⟨hschema, hrequest, boundFrom_of_bind hbind, ⟨registry', hassign⟩, hcheck⟩

theorem bind_of_prepare {registry registry' : AliasRegistry} {r : Request} {p : Prepared}
    (h : r.prepare s registry = (.ok p, registry')) : r.bind s = .ok p.bound := by
  obtain ⟨-, -, hbind, -, -⟩ := prepare_eq_ok.mp h
  exact hbind

end RelQuery
