import RelQuery.Proofs.Join.Exchange
import RelQuery.Proofs.Plan.Page

/-!
# Joining more paths

A request that joins more paths than another, with the same filters and orderings, has other joined rows: there may be
many for one of the narrower request. But each of these goes on into one of the wider request, and each of the wider
ones goes on from one of these, with the same rows at the paths that filters and orderings read. So both requests match
the same root rows, first show them in the same order, and put the same on a page.
-/

namespace RelQuery

open Sql

variable {sv : Server} {db : Database} {s : Schema} {p p' : Prepared}

/-- Two joined rows have the same root row and the same rows at some paths. -/
def AgreeAt (paths : List ResolvedPath) (row row' : Joined) : Prop :=
  ∀ path, path = .root ∨ path ∈ paths.map (·.path) → row' path = row path

theorem AgreeAt.of_joined {paths : List ResolvedPath} {row row' : Joined} (h : AgreeAt paths row row') {path : Path}
    (hjoined : path ≠ .root → ∃ t ∈ paths, t.path = path) : row' path = row path := by
  by_cases hroot : path = .root
  · exact h path (.inl hroot)
  · exact h path (.inr (List.mem_map.mpr (hjoined hroot)))

theorem JoinedPaths.root_not_mem {root : EntityId} {paths : List ResolvedPath} (h : JoinedPaths s root paths) :
    Path.root ∉ paths.map (·.path) := by
  intro hmem
  obtain ⟨r, hr, he⟩ := List.mem_map.mp hmem
  exact h.ne_root r hr he

theorem JoinedPaths.parent {root : EntityId} {paths : List ResolvedPath} (h : JoinedPaths s root paths)
    {r : ResolvedPath} (hr : r ∈ paths) : r.parent = .root ∨ r.parent ∈ paths.map (·.path) := by
  by_cases hne : r.parent = .root
  · exact .inl hne
  · exact .inr (List.mem_map.mpr (h.closed r hr r.parent hne (List.dropLast_prefix _)))

section

variable {root : EntityId} {paths more : List ResolvedPath}

theorem exists_joinPaths_wider (h : JoinedPaths s root paths) (h' : JoinedPaths s root more) (hsub : paths ⊆ more)
    {start row : Joined} (hrow : row ∈ joinPaths sv db s paths start) :
    ∃ row' ∈ joinPaths sv db s more start, AgreeAt paths row row' := by
  -- the row is joined along the new paths only, which leaves it as it is at the others
  let isNew : ResolvedPath → Bool := fun r => !decide (r.path ∈ paths.map (·.path))
  obtain ⟨row', hrow'⟩ := List.exists_mem_of_ne_nil _ (joinPaths_ne_nil sv db s (more.filter isNew) row)
  obtain ⟨hjoined, houtside⟩ := (mem_joinPaths_iff h.parentsFirst).mp hrow
  obtain ⟨hnew, hold⟩ := (mem_joinPaths_iff (h'.parentsFirst.sublist List.filter_sublist)).mp hrow'
  have hagree : AgreeAt paths row row' := by
    intro path hpath
    refine hold path fun hmem => ?_
    obtain ⟨r, hr, rfl⟩ := List.mem_map.mp hmem
    obtain ⟨hr, hnot⟩ := List.mem_filter.mp hr
    exact hpath.elim (h'.ne_root r hr) (of_decide_eq_false ((Bool.not_eq_true' _).mp hnot))
  refine ⟨row', (mem_joinPaths_iff h'.parentsFirst).mpr ⟨fun r hr => ?_, fun path hpath => ?_⟩, hagree⟩
  · by_cases hmem : r.path ∈ paths.map (·.path)
    · obtain ⟨t, ht, he⟩ := List.mem_map.mp hmem
      obtain rfl : t = r := List.inj_on_of_nodup_map h'.nodup (hsub ht) hr he
      rw [hagree _ (.inr hmem), hagree _ (h.parent ht)]
      exact hjoined t ht
    · exact hnew r (List.mem_filter.mpr ⟨hr, (Bool.not_eq_true' _).mpr (decide_eq_false hmem)⟩)
  · have hnot : path ∉ paths.map (·.path) := fun hmem => hpath (List.map_subset _ hsub hmem)
    rw [hold path fun hmem => hpath ((List.filter_sublist.map _).subset hmem), houtside path hnot]

theorem exists_joinPaths_narrower (h : JoinedPaths s root paths) (h' : JoinedPaths s root more) (hsub : paths ⊆ more)
    {start row' : Joined} (hrow' : row' ∈ joinPaths sv db s more start) :
    ∃ row ∈ joinPaths sv db s paths start, AgreeAt paths row row' := by
  obtain ⟨hjoined, houtside⟩ := (mem_joinPaths_iff h'.parentsFirst).mp hrow'
  let row : Joined := fun path => if path ∈ paths.map (·.path) then row' path else start path
  have hagree : AgreeAt paths row row' := by
    intro path hpath
    by_cases hmem : path ∈ paths.map (·.path)
    · exact (if_pos hmem).symm
    · rw [show row path = start path from if_neg hmem, hpath.resolve_right hmem]
      exact houtside .root h'.root_not_mem
  refine ⟨row, (mem_joinPaths_iff h.parentsFirst).mpr ⟨fun r hr => ?_, fun path hpath => if_neg hpath⟩, hagree⟩
  rw [← hagree _ (.inr (List.mem_map_of_mem hr)), ← hagree _ (h.parent hr)]
  exact hjoined r (hsub hr)

end

/-- The second request joins all that the first joins, and has the same filters, orderings and bounds. -/
structure Prepared.Wider (p p' : Prepared) : Prop where
  schema : p'.schema = p.schema
  root : p'.request.root = p.request.root
  limit : p'.request.limit = p.request.limit
  offset : p'.request.offset = p.request.offset
  filters : p'.bound.filters = p.bound.filters
  orders : p'.bound.orders = p.bound.orders
  paths : p.bound.resolved ⊆ p'.bound.resolved

namespace Prepared.Wider

theorem rootSort (hw : p.Wider p') : p'.rootSort = p.rootSort := by
  unfold Prepared.rootSort Prepared.rootEntity
  rw [hw.orders, hw.schema, hw.root]

theorem joined (hw : p.Wider p') (h' : p'.Named) : JoinedPaths p.schema p.request.root p'.bound.resolved := by
  have hjoined := h'.bound.joined
  rwa [hw.schema, hw.root] at hjoined

theorem keeps (hw : p.Wider p') (h : p.Named) {row row' : Joined} (hagree : AgreeAt p.bound.resolved row row') :
    p'.keeps sv db row' = p.keeps sv db row := by
  unfold Prepared.keeps
  rw [hw.filters, Bool.eq_iff_iff, List.all_eq_true, List.all_eq_true]
  refine forall₂_congr fun f hf => ?_
  unfold BoundFilter.keeps
  rw [truth_congr f fun c hc => ?_]
  exact congrArg (Record.at_ · c.column) (hagree.of_joined (h.bound.joined_of_cond hf hc))

theorem exists_kept (hw : p.Wider p') (h : p.Named) (h' : p'.Named) {row : Joined} (hrow : row ∈ p.keptRows sv db) :
    ∃ row' ∈ p'.keptRows sv db, AgreeAt p.bound.resolved row row' := by
  obtain ⟨hjoined, hkeeps⟩ := List.mem_filter.mp hrow
  obtain ⟨hof, hstart⟩ := (mem_joinedRows_at h).mp ⟨hjoined, rfl⟩
  obtain ⟨row', hrow', hagree⟩ := exists_joinPaths_wider h.bound.joined (hw.joined h') hw.paths hstart
  rw [← hw.schema] at hrow' hof
  rw [← hw.root] at hof
  exact ⟨row', List.mem_filter.mpr ⟨((mem_joinedRows_at h').mpr ⟨hof, hrow'⟩).1, (hw.keeps h hagree).trans hkeeps⟩, hagree⟩

theorem exists_kept_narrower (hw : p.Wider p') (h : p.Named) (h' : p'.Named) {row' : Joined}
    (hrow' : row' ∈ p'.keptRows sv db) : ∃ row ∈ p.keptRows sv db, AgreeAt p.bound.resolved row row' := by
  obtain ⟨hjoined, hkeeps⟩ := List.mem_filter.mp hrow'
  obtain ⟨hof, hstart⟩ := (mem_joinedRows_at h').mp ⟨hjoined, rfl⟩
  rw [hw.schema] at hof hstart
  rw [hw.root] at hof
  obtain ⟨row, hrow, hagree⟩ := exists_joinPaths_narrower h.bound.joined (hw.joined h') hw.paths hstart
  exact ⟨row, List.mem_filter.mpr ⟨((mem_joinedRows_at h).mpr ⟨hof, hrow⟩).1, (hw.keeps h hagree).symm.trans hkeeps⟩,
    hagree⟩

theorem mem_matching_iff (hw : p.Wider p') (h : p.Named) (h' : p'.Named) {r : Record} :
    r ∈ p'.matching sv db ↔ r ∈ p.matching sv db := by
  unfold Prepared.matching
  rw [mem_distinct, mem_distinct, List.mem_map, List.mem_map]
  constructor
  · rintro ⟨row', hrow', rfl⟩
    obtain ⟨row, hrow, hagree⟩ := hw.exists_kept_narrower h h' hrow'
    exact ⟨row, hrow, (hagree .root (.inl rfl)).symm⟩
  · rintro ⟨row, hrow, rfl⟩
    obtain ⟨row', hrow', hagree⟩ := hw.exists_kept h h' hrow
    exact ⟨row', hrow', hagree .root (.inl rfl)⟩

theorem perm_matching (hw : p.Wider p') (h : p.Named) (h' : p'.Named) :
    (p'.matching sv db).Perm (p.matching sv db) :=
  (List.perm_ext_iff_of_nodup (distinct_nodup _) (distinct_nodup _)).mpr fun _ => hw.mem_matching_iff h h'

/-- What a page sorts by is read at paths that both requests join. -/
theorem value_eq (h : p.Named) {row row' : Joined} (hagree : AgreeAt p.bound.resolved row row') {c : SortColumn}
    (hc : c ∈ p.rootSort) : row'.value c.path c.column = row.value c.path c.column := by
  refine congrArg (Record.at_ · c.column) (hagree.of_joined fun hne => ?_)
  rcases cases_of_mem_rootSort hc with hroot | ⟨o, ho, rfl⟩
  · exact absurd hroot hne
  · exact h.bound.joined_of_order ho hne

/-- The joined rows of a root row have the same values to sort by in both requests. -/
theorem mem_values_iff (hw : p.Wider p') (h : p.Named) (h' : p'.Named) {r : Record} {c : SortColumn}
    (hc : c ∈ p.rootSort) {v : Value} :
    v ∈ (p'.rowsAt sv db r).map (fun row => row.value c.path c.column) ↔
      v ∈ (p.rowsAt sv db r).map fun row => row.value c.path c.column := by
  unfold Prepared.rowsAt
  simp only [List.mem_map, List.mem_filter, decide_eq_true_iff]
  constructor
  · rintro ⟨row', ⟨hrow', rfl⟩, rfl⟩
    obtain ⟨row, hrow, hagree⟩ := hw.exists_kept_narrower h h' hrow'
    exact ⟨row, ⟨hrow, (hagree .root (.inl rfl)).symm⟩, (value_eq h hagree hc).symm⟩
  · rintro ⟨row, ⟨hrow, rfl⟩, rfl⟩
    obtain ⟨row', hrow', hagree⟩ := hw.exists_kept h h' hrow
    exact ⟨row', ⟨hrow', hagree .root (.inl rfl)⟩, value_eq h hagree hc⟩

theorem compareKeys_pageKey (hw : p.Wider p') (h : p.Named) (h' : p'.Named) (r : Record) :
    sv.compareKeys p.rootDirs (p'.pageKey sv db r) (p.pageKey sv db r) = .eq := by
  unfold Prepared.pageKey Prepared.rootKeyOf
  rw [hw.rootSort]
  refine compareKeys_of_rank fun c hc => ?_
  unfold SortColumn.rootValue
  split
  · exact Std.ReflCmp.compare_self
  · refine Server.rank_extreme_of_mem_iff fun v => ?_
    rw [List.mem_filter, List.mem_filter, hw.mem_values_iff h h' hc]

theorem sortRoots (hw : p.Wider p') (h : p.Named) (h' : p'.Named) (hdb : db.Keyed sv p.schema) :
    p'.sortRoots sv db = p.sortRoots sv db := by
  refine eq_sortRoots h hdb ((perm_sortRoots p' sv db).trans (hw.perm_matching h h')) (p'.pageKey sv db)
    (fun r _ => hw.compareKeys_pageKey h h' r) ?_
  have hsorted := pairwise_sortRoots p' sv db
  rwa [Prepared.rootDirs, hw.rootSort] at hsorted

theorem pageRoots (hw : p.Wider p') (h : p.Named) (h' : p'.Named) (hdb : db.Keyed sv p.schema) :
    p'.pageRoots sv db = p.pageRoots sv db := by
  rw [Prepared.pageRoots, hw.sortRoots h h' hdb, hw.limit, hw.offset, Prepared.pageRoots]

end Prepared.Wider

/-- The request with other paths to load along. -/
def Request.withRelated (r : Request) (related : List Path) : Request := { r with selectRelated := related }

/-- Paths that some lists of paths ask for are joined for longer lists, too. -/
theorem JoinSet.expanded_mono {paths more : List Path} (hsub : paths ⊆ more) {path : Path}
    (h : path ∈ (paths.foldl add .empty).expanded) : path ∈ (more.foldl add .empty).expanded := by
  have hne := (mem_expanded.mp h).1
  obtain ⟨q, hq, hpre⟩ := goThrough_iff.mp ((mem_expanded_iff hne).mp h)
  exact (mem_expanded_iff hne).mpr (goThrough_iff.mpr ⟨q, hsub hq, hpre⟩)

/-- Loading along more paths joins all paths that are joined without, and leaves the rest of what is bound. -/
theorem bind_withRelated {r : Request} {b b' : BoundRequest} {related : List Path} (hsub : r.selectRelated ⊆ related)
    (h : r.bind s = .ok b) (h' : (r.withRelated related).bind s = .ok b') :
    b'.projection = b.projection ∧ b'.filters = b.filters ∧ b'.orders = b.orders ∧ b.resolved ⊆ b'.resolved := by
  obtain ⟨hprojection, -, hfilters, horders, hresolved⟩ := bindRequest_eq_ok.mp h
  obtain ⟨hprojection', -, hfilters', horders', hresolved'⟩ := bindRequest_eq_ok.mp h'
  have hprojections := Except.ok.inj (hprojection'.symm.trans hprojection)
  have hfilterss := Except.ok.inj (hfilters'.symm.trans hfilters)
  have horderss := Except.ok.inj (horders'.symm.trans horders)
  have hreads : b.reads r ⊆ b'.reads (r.withRelated related) := by
    unfold BoundRequest.reads
    rw [hprojections, hfilterss, horderss]
    refine List.append_subset.mpr ⟨List.subset_append_of_subset_left _ fun q hq => ?_, List.subset_append_right _ _⟩
    exact List.mem_filter.mpr ⟨hsub (List.mem_filter.mp hq).1, (List.mem_filter.mp hq).2⟩
  refine ⟨hprojections, hfilterss, horderss, fun t ht => ?_⟩
  obtain ⟨path, hpath, hresolve⟩ := exists_of_mem_forall₂ (mapM_eq_ok.mp hresolved) ht
  obtain ⟨t', ht', hresolve'⟩ :=
    exists_of_mem_forall₂ (mapM_eq_ok.mp hresolved').flip (JoinSet.expanded_mono hreads hpath)
  cases hresolve.symm.trans hresolve'
  exact ht'

/-- Two prepared requests that differ in the paths to load along: the wider one has the same projection. -/
theorem wider_of_prepare {r : Request} {related : List Path} (hsub : r.selectRelated ⊆ related)
    {registry registry' other other' : AliasRegistry} (h : r.prepare s registry = (.ok p, registry'))
    (h' : (r.withRelated related).prepare s other = (.ok p', other')) :
    p.Wider p' ∧ p'.bound.projection = p.bound.projection := by
  have hfrom := preparedFrom_of_prepare h
  have hfrom' := preparedFrom_of_prepare h'
  obtain ⟨hprojection, hfilters, horders, hpaths⟩ := bind_withRelated hsub (bind_of_prepare h) (bind_of_prepare h')
  have hrequest : p'.request = p.request.withRelated related := by rw [hfrom'.request, hfrom.request]
  refine ⟨⟨hfrom'.schema.trans hfrom.schema.symm, ?_, ?_, ?_, hfilters, horders, hpaths⟩, hprojection⟩ <;>
  · rw [hrequest]
    rfl

end RelQuery
