import RelQuery.Proofs.Join.Links

/-!
# Exchanging joined rows

A joined row is one whose row at every joined path is found from the row at the path before. So a row at a path can be
exchanged for any other that is found there, and nothing has to change but what is joined further on. Foreign keys leave
no choice.
-/

namespace RelQuery

open Sql

variable {sv : Server} {db : Database} {s : Schema}

/-- No path goes on from itself or from a later one. -/
structure ParentsFirst (paths : List ResolvedPath) : Prop where
  self : ∀ r ∈ paths, r.parent ≠ r.path
  later : paths.Pairwise fun r t => r.parent ≠ t.path
  nodup : (paths.map (·.path)).Nodup

theorem ParentsFirst.tail {r : ResolvedPath} {rest : List ResolvedPath} (h : ParentsFirst (r :: rest)) :
    ParentsFirst rest :=
  ⟨fun t ht => h.self t (List.mem_cons_of_mem _ ht), (List.pairwise_cons.mp h.later).2,
    (List.nodup_cons.mp (List.map_cons ▸ h.nodup)).2⟩

theorem ParentsFirst.sublist {paths more : List ResolvedPath} (h : ParentsFirst more) (hsub : paths.Sublist more) :
    ParentsFirst paths :=
  ⟨fun r hr => h.self r (hsub.subset hr), h.later.sublist hsub, h.nodup.sublist (hsub.map _)⟩

theorem length_parent (r : ResolvedPath) (hne : r.path ≠ .root) : r.parent.length + 1 = r.path.length := by
  have hlength : r.path.segments.length ≠ 0 := fun he => hne (congrArg Path.mk (List.length_eq_zero_iff.mp he))
  unfold ResolvedPath.parent Path.length
  rw [List.length_dropLast]
  omega

theorem JoinedPaths.parentsFirst {root : EntityId} {paths : List ResolvedPath} (h : JoinedPaths s root paths) :
    ParentsFirst paths where
  self r hr he := by
    have hlength := length_parent r (h.ne_root r hr)
    rw [he] at hlength
    omega
  later := h.shorterFirst.imp_of_mem fun {r t} hr _ hle he => by
    have hlength := length_parent r (h.ne_root r hr)
    rw [he] at hlength
    omega
  nodup := h.nodup

theorem mem_joinPaths_iff {paths : List ResolvedPath} (h : ParentsFirst paths) {start row : Joined} :
    row ∈ joinPaths sv db s paths start ↔
      (∀ r ∈ paths, row r.path ∈ (r.relation s).follow sv db s (row r.parent)) ∧
        ∀ path ∉ paths.map (·.path), row path = start path := by
  induction paths generalizing start with
  | nil =>
    rw [joinPaths, List.mem_singleton]
    constructor
    · rintro rfl
      exact ⟨fun _ hr => absurd hr List.not_mem_nil, fun _ _ => rfl⟩
    · rintro ⟨-, hrest⟩
      exact funext fun path => hrest path List.not_mem_nil
  | cons r rest ih =>
    have hparent : r.parent ∉ rest.map (·.path) := by
      intro hmem
      obtain ⟨t, ht, he⟩ := List.mem_map.mp hmem
      exact (List.pairwise_cons.mp h.later).1 t ht he.symm
    have hself := h.self r (List.mem_cons_self ..)
    have hpath : r.path ∉ rest.map (·.path) := (List.nodup_cons.mp (List.map_cons ▸ h.nodup)).1
    rw [joinPaths, List.mem_flatMap, List.forall_mem_cons]
    simp only [ih h.tail, List.map_cons, List.mem_cons, not_or]
    constructor
    · rintro ⟨found, hfound, hbelow, hrest⟩
      have hhere : row r.path = found := by rw [hrest r.path hpath, Function.update_self]
      have hbefore : row r.parent = start r.parent := by
        rw [hrest r.parent hparent, Function.update_of_ne hself]
      refine ⟨⟨by rwa [hhere, hbefore], hbelow⟩, fun path hpath => ?_⟩
      obtain ⟨hne, hnot⟩ := hpath
      rw [hrest path hnot, Function.update_of_ne hne]
    · rintro ⟨⟨hhere, hbelow⟩, hrest⟩
      rw [hrest r.parent ⟨hself, hparent⟩] at hhere
      refine ⟨row r.path, hhere, hbelow, fun path hnot => ?_⟩
      by_cases hne : path = r.path
      · rw [hne, Function.update_self]
      · rw [hrest path ⟨hne, hnot⟩, Function.update_of_ne hne]

theorem not_prefix_parent {r : ResolvedPath} (hne : r.path ≠ .root) : ¬r.path.segments <+: r.parent.segments := by
  intro hpre
  have hlength := length_parent r hne
  have hle : r.path.length ≤ r.parent.length := hpre.length_le
  omega

/-- A row at a path can be exchanged for any other that is found there. -/
theorem exists_exchange {root : EntityId} {paths : List ResolvedPath} (h : JoinedPaths s root paths) {start row : Joined}
    (hrow : row ∈ joinPaths sv db s paths start) {r : ResolvedPath} (hr : r ∈ paths) {found : Record}
    (hfound : found ∈ (r.relation s).follow sv db s (row r.parent)) :
    ∃ row' ∈ joinPaths sv db s paths start, row' r.path = found ∧
      ∀ path : Path, ¬r.path.segments <+: path.segments → row' path = row path := by
  have hfirst := h.parentsFirst
  let isBelow : ResolvedPath → Bool := fun t => r.path.isPrefixOf t.path && t.path != r.path
  have hbelow_iff : ∀ t, isBelow t = true ↔ r.path.segments <+: t.path.segments ∧ t.path ≠ r.path := fun t => by
    simp [isBelow, Path.isPrefixOf_iff]
  obtain ⟨row', hrow'⟩ := List.exists_mem_of_ne_nil _
    (joinPaths_ne_nil sv db s (paths.filter isBelow) (Function.update row r.path found))
  obtain ⟨hbelow, hrest⟩ := (mem_joinPaths_iff (hfirst.sublist List.filter_sublist)).mp hrow'
  obtain ⟨hjoined, houtside⟩ := (mem_joinPaths_iff hfirst).mp hrow
  have hnotBelow : ∀ path : Path, (r.path.segments <+: path.segments → path = r.path) →
      path ∉ (paths.filter isBelow).map (·.path) := by
    intro path hpath hmem
    obtain ⟨t, ht, rfl⟩ := List.mem_map.mp hmem
    obtain ⟨hpre, hne⟩ := (hbelow_iff t).mp (List.mem_filter.mp ht).2
    exact hne (hpath hpre)
  have hhere : row' r.path = found := by
    rw [hrest _ (hnotBelow _ fun _ => rfl), Function.update_self]
  have hother : ∀ path : Path, ¬r.path.segments <+: path.segments → row' path = row path := by
    intro path hpath
    rw [hrest _ (hnotBelow _ fun hpre => absurd hpre hpath), Function.update_of_ne]
    rintro rfl
    exact hpath List.prefix_rfl
  refine ⟨row', (mem_joinPaths_iff hfirst).mpr ⟨fun t ht => ?_, fun path hpath => ?_⟩, hhere, hother⟩
  · -- the path goes on below, is the one where the row was exchanged, or does not come by it
    by_cases hpre : r.path.segments <+: t.path.segments
    · by_cases hne : t.path = r.path
      · obtain rfl : t = r := List.inj_on_of_nodup_map h.nodup ht hr hne
        rwa [hhere, hother _ (not_prefix_parent (h.ne_root t ht))]
      · exact hbelow t (List.mem_filter.mpr ⟨ht, (hbelow_iff t).mpr ⟨hpre, hne⟩⟩)
    · have hparent : ¬r.path.segments <+: t.parent.segments := fun hparent =>
        hpre (hparent.trans (List.dropLast_prefix _))
      rw [hother _ hpre, hother _ hparent]
      exact hjoined t ht
  · by_cases hpre : r.path.segments <+: path.segments
    · have hne : path ≠ r.path := by
        rintro rfl
        exact hpath (List.mem_map_of_mem hr)
      have hnot : path ∉ (paths.filter isBelow).map (·.path) := fun hmem =>
        hpath ((List.filter_sublist.map _).subset hmem)
      rw [hrest _ hnot, Function.update_of_ne hne, houtside path hpath]
    · rw [hother _ hpre, houtside path hpath]

end RelQuery
