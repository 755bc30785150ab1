import RelQuery.Proofs.Join.Rows
import RelQuery.Proofs.Plan.Aliased
import RelQuery.Proofs.Projection

/-!
# Requests that are planned

A request whose names resolve and that leaves nothing out is planned, unless its tables find no aliases of their own.
Once its tables are named, nothing can fail.
-/

namespace RelQuery

open Sql

variable {s : Schema} {p : Prepared}

theorem exists_resolve_of_prefix {root : EntityId} {path other : Path} (hpre : path.segments <+: other.segments)
    {t : ResolvedPath} (h : s.resolve root other = .ok t) : ∃ r, s.resolve root path = .ok r := by
  obtain ⟨rfl, hresolves⟩ := resolve_eq_ok.mp h
  obtain ⟨more, hmore⟩ := hpre
  unfold ResolvedPath.Resolves at hresolves
  rw [← hmore] at hresolves
  obtain ⟨hops, target, -, hwalk, -⟩ := walk_append.mp hresolves
  exact ⟨⟨path, hops, target⟩, resolve_eq_ok.mpr ⟨rfl, hwalk⟩⟩

/-- A request whose names resolve and that reads what it loads only is bound, and joins the paths to load. -/
theorem exists_bind {r : Request} {projection : Projection} (hprojection : r.bindProjection s = .ok projection)
    (hexcludes : ∀ path, projection.excludesPath path = false)
    (hrelated : ∀ path ∈ r.selectRelated, ∃ t, s.resolve r.root path = .ok t) {filters : List BoundFilter}
    (hfilters : s.bindFilters r.root r.filters = .ok filters) {orders : List BoundOrder}
    (horders : r.orderBy.mapM (s.bindOrder r.root) = .ok orders)
    (hreads : ∀ path ∈ filters.flatMap BoundFilter.paths ++ orders.map (·.path), path ≠ .root →
      goThrough r.selectRelated path = true) :
    ∃ resolved, r.bind s = .ok ⟨projection, filters, orders, resolved⟩ ∧
      ∀ path, path ≠ .root → ((∃ t ∈ resolved, t.path = path) ↔ goThrough r.selectRelated path = true) := by
  let paths := r.selectRelated ++ (filters.flatMap BoundFilter.paths ++ orders.map (·.path))
  have hexpanded : ∀ path, path ≠ .root →
      (path ∈ (paths.foldl JoinSet.add .empty).expanded ↔ goThrough r.selectRelated path = true) := by
    intro path hne
    rw [JoinSet.mem_expanded_iff hne, goThrough_iff, goThrough_iff]
    constructor
    · rintro ⟨q, hq, hpre⟩
      rcases List.mem_append.mp hq with hq | hq
      · exact ⟨q, hq, hpre⟩
      · obtain ⟨q', hq', hpre'⟩ := goThrough_iff.mp (hreads q hq (Path.ne_root_of_prefix hpre hne))
        exact ⟨q', hq', hpre.trans hpre'⟩
    · exact fun ⟨q, hq, hpre⟩ => ⟨q, List.mem_append_left _ hq, hpre⟩
  obtain ⟨resolved, hresolved⟩ : ∃ resolved, (paths.foldl JoinSet.add .empty).expanded.mapM (s.resolve r.root) = .ok resolved := by
    refine exists_mapM_eq_ok fun path hpath => ?_
    obtain ⟨q, hq, hpre⟩ := goThrough_iff.mp ((hexpanded path (JoinSet.mem_expanded.mp hpath).1).mp hpath)
    obtain ⟨t, ht⟩ := hrelated q hq
    exact exists_resolve_of_prefix hpre ht
  refine ⟨resolved, bindRequest_eq_ok.mpr ⟨hprojection, hrelated, hfilters, horders, ?_⟩, fun path hne => ?_⟩
  · rw [BoundRequest.reads, List.filter_eq_self.mpr fun path _ => by rw [hexcludes]; rfl]
    exact hresolved
  · rw [← hexpanded path hne, ← map_path_of_resolve hresolved, List.mem_map]

/-- Whether tables of a statement found no aliases of their own: one of them would be the name of another table, or the
search for one does not end. -/
def NoResult.isAliasError : NoResult → Bool
  | .failed (.ambiguousAlias ..) => true
  | .endless _ => true
  | _ => false

theorem isAliasError_of_assign {registry registry' : AliasRegistry} {rootTable : String} {paths : List ResolvedPath}
    {n : NoResult} (h : AliasPlan.assign registry s rootTable paths = (.error n, registry')) :
    n.isAliasError = true := by
  rcases assign_eq_error h with hscopes | ⟨entries, e, -, hverify, rfl⟩
  · obtain ⟨_, -, _, -, rfl, -⟩ := registerScopes_error hscopes
    rfl
  · obtain ⟨_, _, rfl, -⟩ := verifyUnique_error hverify
    rfl

/-- A bound request that leaves nothing out is prepared, unless its tables find no aliases. -/
theorem prepare_of_bind (registry : AliasRegistry) {r : Request} {b : BoundRequest} (hb : r.bind s = .ok b)
    (hroot : ∀ field, b.projection.isIncluded field = true)
    (hrest : ∀ t ∈ b.resolved, r.partialPaths.contains t.path = false →
      ∀ field, (b.projection.at_ t.path).isIncluded field = true) :
    (∃ aliases registry', r.prepare s registry = (.ok ⟨s, r, b, aliases⟩, registry')) ∨
      ∃ n registry', r.prepare s registry = (.error n, registry') ∧ n.isAliasError = true := by
  rcases hassign : AliasPlan.assign registry s (s.entity r.root).table b.resolved with ⟨n | aliases, registry'⟩
  · refine .inr ⟨n, registry', ?_, isAliasError_of_assign hassign⟩
    exact prepare_eq_error.mpr (.inr ⟨b, hb, .inl hassign⟩)
  · refine .inl ⟨aliases, registry', prepare_eq_ok.mpr ⟨rfl, rfl, hb, hassign, ?_⟩⟩
    refine bind_eq_ok.mpr ⟨(), checkEntity_eq_ok.mpr fun c _ _ _ => hroot c.name, forM_eq_ok.mpr fun t ht => ?_⟩
    obtain ⟨ht, hcomplete⟩ := List.mem_filter.mp ht
    have hpartial := (Bool.and_eq_true_iff.mp hcomplete).2
    exact checkEntity_eq_ok.mpr fun c _ _ _ => hrest t ht (by simpa using hpartial) c.name

theorem Prepared.Named.aliased (h : p.Named) : p.Aliased := by
  refine ⟨h.bound, fun t ht => ?_⟩
  obtain ⟨a, _, hop⟩ := h.exists_hop ht
  exact ⟨a, hop.aliases⟩

theorem Prepared.Named.exists_plan (h : p.Named) (settings : Settings) : ∃ planned, p.plan settings = .ok planned :=
  h.aliased.exists_plan settings

end RelQuery
