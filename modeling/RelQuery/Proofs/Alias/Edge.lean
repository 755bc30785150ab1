import Mathlib.Data.List.Nodup
import RelQuery.Proofs.Alias.Plan

/-!
# Which path keeps an edge

Of the paths that end on the same relation of the same table, the shortest keeps the aliases of the relation, and the
first of them if several are equally short. The others are named by their whole paths. No scope is needed twice in one
statement, since a relation has one keeper and the texts of the paths differ.
-/

namespace RelQuery

variable {s : Schema} {rootTable : String} {paths : List ResolvedPath}

/-- The table that owns the last relation of a path, and the name of the relation. -/
def ResolvedPath.edge? (s : Schema) (t : ResolvedPath) : Option (String × String) :=
  t.lastHop?.map fun id => ((s.entity (s.relation id).owner).table, (s.relation id).name)

/-- Of all paths on its edge the path is the shortest, and the first of the shortest. -/
def KeepsEdge (s : Schema) (paths : List ResolvedPath) (t : ResolvedPath) : Prop :=
  ∃ before after, paths = before ++ t :: after ∧
    (∀ u ∈ before, u.edge? s = t.edge? s → t.path.length < u.path.length) ∧
    ∀ u ∈ after, u.edge? s = t.edge? s → t.path.length ≤ u.path.length

theorem KeepsEdge.unique {t u : ResolvedPath} (ht : KeepsEdge s paths t) (hu : KeepsEdge s paths u)
    (he : u.edge? s = t.edge? s) : u = t := by
  obtain ⟨before, after, rfl, hbefore, hafter⟩ := ht
  obtain ⟨before', after', hsplit, hbefore', hafter'⟩ := hu
  rcases List.append_eq_append_iff.mp hsplit with ⟨between, rfl, hrest⟩ | ⟨between, rfl, hrest⟩
  · cases between with
    | nil =>
      cases hrest
      rfl
    | cons first between =>
      cases hrest
      have hlt := hbefore' t (by simp) he.symm
      have hle := hafter u (by simp) he
      omega
  · cases between with
    | nil =>
      cases hrest
      rfl
    | cons first between =>
      cases hrest
      have hlt := hbefore u (by simp) he
      have hle := hafter' t (by simp) he.symm
      omega

theorem edge?_of_ofResolved? {t : ResolvedPath} {e : EdgePath} (h : EdgePath.ofResolved? s t = some e) :
    t.edge? s = some (e.table, e.relation.name) ∧ e.path = t.path := by
  unfold EdgePath.ofResolved? at h
  obtain ⟨id, hid, rfl⟩ := Option.map_eq_some_iff.mp h
  refine ⟨?_, rfl⟩
  rw [ResolvedPath.edge?, hid]
  rfl

theorem exists_ofResolved? {t : ResolvedPath} {edge : String × String} (h : t.edge? s = some edge) :
    ∃ e, EdgePath.ofResolved? s t = some e ∧ e.scope = .edge edge.1 edge.2 := by
  unfold ResolvedPath.edge? at h
  obtain ⟨id, hid, rfl⟩ := Option.map_eq_some_iff.mp h
  exact ⟨⟨t.path, _, s.relation id⟩, by rw [EdgePath.ofResolved?, hid]; rfl, rfl⟩

/-! ### The order of a group -/

theorem nodup_longestFirst {group : List EdgePath} (h : group.Nodup) : (longestFirst group).Nodup := by
  unfold longestFirst
  refine List.nodup_flatMap.mpr ⟨fun n _ => List.nodup_reverse.mpr (h.filter _), ?_⟩
  refine (List.nodup_reverse.mpr List.nodup_range).imp fun {n m} hne => ?_
  intro e he he'
  rw [List.mem_reverse, List.mem_filter, beq_iff_eq] at he he'
  exact hne (he.2.symm.trans he'.2)

/-- The last of a group is the shortest, and the first of the shortest. -/
theorem getLast?_longestFirst {group : List EdgePath} {e : EdgePath} (h : (longestFirst group).getLast? = some e) :
    ∃ before after, group = before ++ e :: after ∧ (∀ f ∈ before, e.path.length < f.path.length) ∧
      ∀ f ∈ after, e.path.length ≤ f.path.length := by
  have hle := (le_foldl_max (fun e : EdgePath => e.path.length) group 0).2
  unfold longestFirst at h
  rw [List.getLast?_eq_head?_reverse, List.reverse_flatMap, List.reverse_reverse, List.head?_flatMap] at h
  simp only [Function.comp_apply, List.reverse_reverse, List.head?_filter] at h
  obtain ⟨shorter, n, longer, hrange, hfind, hnone⟩ := List.findSome?_eq_some_iff.mp h
  obtain ⟨hlen, before, after, rfl, hbefore⟩ := List.find?_eq_some_iff_append.mp hfind
  rw [beq_iff_eq] at hlen
  -- a length below that of the one found was tried before, and no path has it
  have hmin : ∀ f ∈ before ++ e :: after, e.path.length ≤ f.path.length := by
    intro f hf
    refine Nat.le_of_not_lt fun hlt => ?_
    have hmem := List.mem_range.mpr (Nat.lt_succ_of_le (hle f hf))
    have hsorted := hrange ▸ List.pairwise_lt_range
    rw [hrange] at hmem
    rcases List.mem_append.mp hmem with hmem | hmem
    · exact List.find?_eq_none.mp (hnone _ hmem) f hf (beq_self_eq_true _)
    · have hge := (List.pairwise_cons.mp (List.pairwise_append.mp hsorted).2.1).1
      rcases List.mem_cons.mp hmem with hmem | hmem
      · omega
      · have := hge _ hmem
        omega
  refine ⟨before, after, rfl, fun f hf => ?_, fun f hf => hmin f (by simp [hf])⟩
  have hne := hbefore f hf
  rw [Bool.not_eq_true', beq_eq_false_iff_ne] at hne
  have := hmin f (by simp [hf])
  omega

theorem groupScopes_of_concat (rootTable : String) {group before : List EdgePath} {k : EdgePath}
    (h : longestFirst group = before ++ [k]) :
    groupScopes rootTable group = before.map (·.byPath rootTable) ++ [k.byEdge] := by
  rw [groupScopes, h, List.dropLast_concat, List.getLast?_concat]
  rfl

theorem groupScopes_path (group : List EdgePath) :
    (groupScopes rootTable group).map (·.path) = (longestFirst group).map (·.path.text) := by
  rcases List.eq_nil_or_concat' (longestFirst group) with hnil | ⟨before, k, hk⟩
  · rw [groupScopes, hnil]
    rfl
  · rw [groupScopes_of_concat rootTable hk, hk, List.map_append, List.map_append, List.map_map]
    rfl

/-- The paths that end on one edge. -/
def edgeGroup (s : Schema) (paths : List ResolvedPath) (scope : AliasScope) : List EdgePath :=
  (paths.filterMap (EdgePath.ofResolved? s)).filter (·.scope == scope)

theorem mem_edgeGroup {scope : AliasScope} {e : EdgePath} :
    e ∈ edgeGroup s paths scope ↔ ∃ t ∈ paths, EdgePath.ofResolved? s t = some e ∧ e.scope = scope := by
  rw [edgeGroup, List.mem_filter, List.mem_filterMap, beq_iff_eq]
  exact ⟨fun ⟨⟨t, ht, he⟩, hscope⟩ => ⟨t, ht, he, hscope⟩, fun ⟨t, ht, he, hscope⟩ => ⟨⟨t, ht, he⟩, hscope⟩⟩

theorem neededScopes_eq (s : Schema) (rootTable : String) (paths : List ResolvedPath) :
    neededScopes s rootTable paths = (distinct ((paths.filterMap (EdgePath.ofResolved? s)).map (·.scope))).flatMap
      fun scope => groupScopes rootTable (edgeGroup s paths scope) := rfl

theorem groupScopes_subset_neededScopes (rootTable : String) {scope : AliasScope} {e : EdgePath}
    (he : e ∈ edgeGroup s paths scope) :
    groupScopes rootTable (edgeGroup s paths scope) ⊆ neededScopes s rootTable paths := by
  intro w hw
  obtain ⟨t, ht, hte, rfl⟩ := mem_edgeGroup.mp he
  rw [neededScopes_eq]
  refine List.mem_flatMap.mpr ⟨e.scope, mem_distinct.mpr ?_, hw⟩
  exact List.mem_map_of_mem (List.mem_filterMap.mpr ⟨t, ht, hte⟩)

/-- The last of a group comes from the path that keeps the edge. -/
theorem exists_keepsEdge {scope : AliasScope} {before : List EdgePath} {e : EdgePath}
    (h : longestFirst (edgeGroup s paths scope) = before ++ [e]) :
    ∃ k ∈ paths, EdgePath.ofResolved? s k = some e ∧ KeepsEdge s paths k := by
  obtain ⟨first, last, hgroup, hfirst, hlast⟩ := getLast?_longestFirst (h ▸ List.getLast?_concat)
  have he : e.scope = scope := by
    have hmem : e ∈ edgeGroup s paths scope := by simp [hgroup]
    obtain ⟨-, -, -, hscope⟩ := mem_edgeGroup.mp hmem
    exact hscope
  rw [edgeGroup, List.filter_filterMap] at hgroup
  obtain ⟨outer, inner, rfl, hbefore, hinner⟩ := List.filterMap_eq_append_iff.mp hgroup
  obtain ⟨unlinked, k, after, rfl, hnone, hk, hafter⟩ := List.filterMap_eq_cons_iff.mp hinner
  obtain ⟨hk, -⟩ := Option.filter_eq_some_iff.mp hk
  obtain ⟨hkedge, hkpath⟩ := edge?_of_ofResolved? hk
  -- a path on the edge of the keeper is a member of the group
  have hmember : ∀ u : ResolvedPath, u.edge? s = k.edge? s →
      ∃ f, (EdgePath.ofResolved? s u).filter (·.scope == scope) = some f ∧ f.path = u.path := by
    intro u hu
    obtain ⟨f, hf, hscope⟩ := exists_ofResolved? (hu.trans hkedge)
    refine ⟨f, Option.filter_eq_some_iff.mpr ⟨hf, ?_⟩, (edge?_of_ofResolved? hf).2⟩
    rw [beq_iff_eq, hscope, ← he]
    rfl
  refine ⟨k, by simp, hk, outer ++ unlinked, after, by simp, fun u hu hedge => ?_, fun u hu hedge => ?_⟩
  · obtain ⟨f, hf, hpath⟩ := hmember u hedge
    rcases List.mem_append.mp hu with hu | hu
    · have hlt := hfirst f (hbefore ▸ List.mem_filterMap.mpr ⟨u, hu, hf⟩)
      rwa [hpath, hkpath] at hlt
    · rw [hnone u hu] at hf
      cases hf
  · obtain ⟨f, hf, hpath⟩ := hmember u hedge
    have hle := hlast f (hafter ▸ List.mem_filterMap.mpr ⟨u, hu, hf⟩)
    rwa [hpath, hkpath] at hle

/-! ### The scopes of a statement -/

/-- A path needs the scopes of its edge, for which it must keep the edge, or those of the whole path. -/
theorem neededScopes_cases {w : JoinScopes} (h : w ∈ neededScopes s rootTable paths) :
    ∃ t ∈ paths, ∃ e, EdgePath.ofResolved? s t = some e ∧
      (w = e.byPath rootTable ∨ w = e.byEdge ∧ KeepsEdge s paths t) := by
  rw [neededScopes_eq] at h
  obtain ⟨scope, -, hw⟩ := List.mem_flatMap.mp h
  rcases List.eq_nil_or_concat' (longestFirst (edgeGroup s paths scope)) with hnil | ⟨before, k, hk⟩
  · rw [groupScopes, hnil] at hw
    cases hw
  · rw [groupScopes_of_concat rootTable hk] at hw
    rcases List.mem_append.mp hw with hw | hw
    · obtain ⟨e, he, rfl⟩ := List.mem_map.mp hw
      obtain ⟨t, ht, hte, -⟩ := mem_edgeGroup.mp (mem_longestFirst.mp (hk ▸ List.mem_append_left [k] he))
      exact ⟨t, ht, e, hte, .inl rfl⟩
    · obtain ⟨t, ht, hte, hkeeps⟩ := exists_keepsEdge hk
      exact ⟨t, ht, k, hte, .inr ⟨List.mem_singleton.mp hw, hkeeps⟩⟩

/-- On every edge one path gets the scopes of the edge, the others those of their own. -/
theorem exists_keeper (rootTable : String) (htext : (paths.map (·.path.text)).Nodup) {t : ResolvedPath} (ht : t ∈ paths)
    {edge : String × String} (he : t.edge? s = some edge) :
    ∃ k ∈ paths, k.edge? s = some edge ∧ KeepsEdge s paths k ∧ ∀ u ∈ paths, u.edge? s = some edge →
      ∃ f, EdgePath.ofResolved? s u = some f ∧
        (if u = k then f.byEdge else f.byPath rootTable) ∈ neededScopes s rootTable paths := by
  obtain ⟨e, hte, hscope⟩ := exists_ofResolved? he
  have hmem : e ∈ edgeGroup s paths (.edge edge.1 edge.2) := mem_edgeGroup.mpr ⟨t, ht, hte, hscope⟩
  obtain ⟨before, last, hlast⟩ : ∃ before last, longestFirst (edgeGroup s paths (.edge edge.1 edge.2)) = before ++ [last] :=
    (List.eq_nil_or_concat' _).resolve_left (List.ne_nil_of_mem (mem_longestFirst.mpr hmem))
  obtain ⟨k, hk, hke, hkeeps⟩ := exists_keepsEdge hlast
  have hneeded := groupScopes_subset_neededScopes rootTable hmem
  rw [groupScopes_of_concat rootTable hlast] at hneeded
  have hkedge : k.edge? s = some edge := by
    have hlastmem := mem_longestFirst.mp (hlast ▸ List.mem_append_right before (List.mem_singleton_self last))
    obtain ⟨-, -, -, hlastscope⟩ := mem_edgeGroup.mp hlastmem
    rw [EdgePath.scope, AliasScope.edge.injEq] at hlastscope
    rw [(edge?_of_ofResolved? hke).1, hlastscope.1, hlastscope.2]
  refine ⟨k, hk, hkedge, hkeeps, fun u hu huedge => ?_⟩
  obtain ⟨f, hf, hfscope⟩ := exists_ofResolved? huedge
  refine ⟨f, hf, ?_⟩
  split
  · rename_i huk
    rw [huk, hke] at hf
    cases hf
    exact hneeded (List.mem_append_right _ (List.mem_singleton_self _))
  · rename_i huk
    refine hneeded (List.mem_append_left _ (List.mem_map_of_mem ?_))
    have hfmem := mem_longestFirst.mpr (mem_edgeGroup.mpr ⟨u, hu, hf, hfscope⟩)
    rw [hlast] at hfmem
    rcases List.mem_append.mp hfmem with hfmem | hfmem
    · exact hfmem
    · -- the last of the group comes from the keeper alone, since paths are told apart by their texts
      cases List.mem_singleton.mp hfmem
      have hpath : u.path.text = k.path.text := by
        rw [← (edge?_of_ofResolved? hf).2, ← (edge?_of_ofResolved? hke).2]
      exact absurd (List.inj_on_of_nodup_map htext hu hk hpath) huk

theorem nodup_edgePaths (htext : (paths.map (·.path.text)).Nodup) :
    ((paths.filterMap (EdgePath.ofResolved? s)).map (·.path.text)).Nodup := by
  rw [List.map_filterMap]
  refine List.pairwise_filterMap.mpr ((List.pairwise_map.mp htext).imp fun {t u} hne => ?_)
  intro text htext text' htext'
  obtain ⟨e, he, rfl⟩ := Option.map_eq_some_iff.mp htext
  obtain ⟨f, hf, rfl⟩ := Option.map_eq_some_iff.mp htext'
  rwa [(edge?_of_ofResolved? he).2, (edge?_of_ofResolved? hf).2]

theorem nodup_neededScopes_path (rootTable : String) (htext : (paths.map (·.path.text)).Nodup) :
    ((neededScopes s rootTable paths).map (·.path)).Nodup := by
  have hedges := nodup_edgePaths (s := s) htext
  have hinj : ∀ e ∈ paths.filterMap (EdgePath.ofResolved? s), ∀ f ∈ paths.filterMap (EdgePath.ofResolved? s),
      e.path.text = f.path.text → e = f := fun e he f hf => List.inj_on_of_nodup_map hedges he hf
  unfold neededScopes
  dsimp only
  rw [List.map_flatMap, List.nodup_flatMap]
  constructor
  · intro scope _
    rw [groupScopes_path]
    refine List.Nodup.map_on (fun e he f hf => hinj e ?_ f ?_) (nodup_longestFirst (hedges.of_map.filter _))
    · exact (List.mem_filter.mp (mem_longestFirst.mp he)).1
    · exact (List.mem_filter.mp (mem_longestFirst.mp hf)).1
  · refine (distinct_nodup _).imp fun {scope scope'} hne => ?_
    intro text htext htext'
    dsimp only at htext htext'
    rw [groupScopes_path] at htext htext'
    obtain ⟨e, he, rfl⟩ := List.mem_map.mp htext
    obtain ⟨f, hf, hef⟩ := List.mem_map.mp htext'
    obtain ⟨he, hescope⟩ := List.mem_filter.mp (mem_longestFirst.mp he)
    obtain ⟨hf, hfscope⟩ := List.mem_filter.mp (mem_longestFirst.mp hf)
    rw [beq_iff_eq] at hescope hfscope
    rw [hinj f hf e he hef] at hfscope
    exact hne (hescope.symm.trans hfscope)

/-- What a scope is for: the relation of a table, or the path from a root. -/
def AliasScope.subject : AliasScope → (String × String) ⊕ (String × String)
  | .edge table relation | .through table relation => .inl (table, relation)
  | .path root written | .throughPath root written => .inr (root, written)

theorem subject_of_mem_byPath {e : EdgePath} {scope : AliasScope} (h : scope ∈ (e.byPath rootTable).all) :
    scope.subject = .inr (rootTable, e.path.text) := by
  unfold JoinScopes.all EdgePath.byPath at h
  rcases List.mem_append.mp h with h | h
  · split at h <;> simp_all [AliasScope.subject]
  · rw [List.mem_singleton.mp h]
    rfl

theorem subject_of_mem_byEdge {e : EdgePath} {scope : AliasScope} (h : scope ∈ e.byEdge.all) :
    scope.subject = .inl (e.table, e.relation.name) := by
  unfold JoinScopes.all EdgePath.byEdge at h
  rcases List.mem_append.mp h with h | h
  · split at h <;> simp_all [AliasScope.subject]
  · rw [List.mem_singleton.mp h]
    rfl

theorem nodup_all_byPath (e : EdgePath) : (e.byPath rootTable).all.Nodup := by
  unfold JoinScopes.all EdgePath.byPath
  cases e.relation.isManyToMany <;> simp

theorem nodup_all_byEdge (e : EdgePath) : e.byEdge.all.Nodup := by
  unfold JoinScopes.all EdgePath.byEdge EdgePath.scope
  cases e.relation.isManyToMany <;> simp

/-- No scope names two tables of a statement. -/
theorem nodup_neededScopes (rootTable : String) (htext : (paths.map (·.path.text)).Nodup) :
    ((neededScopes s rootTable paths).flatMap JoinScopes.all).Nodup := by
  refine List.nodup_flatMap.mpr ⟨fun w hw => ?_, ?_⟩
  · obtain ⟨t, -, e, -, rfl | ⟨rfl, -⟩⟩ := neededScopes_cases hw
    · exact nodup_all_byPath e
    · exact nodup_all_byEdge e
  · refine (List.pairwise_map.mp (nodup_neededScopes_path rootTable htext)).imp_of_mem fun {w w'} hw hw' hne => ?_
    obtain ⟨t, -, e, he, hwe⟩ := neededScopes_cases hw
    obtain ⟨u, -, f, hf, hwf⟩ := neededScopes_cases hw'
    obtain ⟨htedge, htpath⟩ := edge?_of_ofResolved? he
    obtain ⟨huedge, hupath⟩ := edge?_of_ofResolved? hf
    intro scope hscope hscope'
    rcases hwe with rfl | ⟨rfl, hkeeps⟩
    · have hsubject := subject_of_mem_byPath hscope
      rcases hwf with rfl | ⟨rfl, -⟩
      · rw [subject_of_mem_byPath hscope', Sum.inr.injEq, Prod.mk.injEq] at hsubject
        exact hne hsubject.2.symm
      · rw [subject_of_mem_byEdge hscope'] at hsubject
        cases hsubject
    · have hsubject := subject_of_mem_byEdge hscope
      rcases hwf with rfl | ⟨rfl, hkeeps'⟩
      · rw [subject_of_mem_byPath hscope'] at hsubject
        cases hsubject
      · -- both keep one edge, so they are one path
        rw [subject_of_mem_byEdge hscope', Sum.inl.injEq] at hsubject
        have hsame := hkeeps.unique hkeeps' (by rw [htedge, huedge, hsubject])
        refine hne ?_
        change e.path.text = f.path.text
        rw [htpath, hupath, hsame]

end RelQuery
