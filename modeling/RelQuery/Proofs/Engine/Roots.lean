import RelQuery.Proofs.Engine.Slice
import RelQuery.Proofs.Plan.Spans

/-!
# Roots that the root entity decides

Where filters and orderings read the root alone, what is joined has no say in which root rows match and in which order
they come. Without orderings they come in the order of their primary keys.
-/

namespace RelQuery

open Sql

variable {sv : Server} {db : Database} {p p' : Prepared}

/-- A root row matches if all filters keep it with nothing joined. -/
theorem mem_matching_of_readsRoot (h : p.Named) (hroot : p.ReadsRoot) {root : Record} :
    root ∈ p.matching sv db ↔
      root ∈ db.of p.schema p.request.root ∧ ∀ f ∈ p.bound.filters, f.keeps sv db (.start root) = true := by
  have hrow : ∀ row, p.rowHolds sv db row = true := fun row =>
    List.all_eq_true.mpr fun f hf => by rw [hroot.filters f hf]; rfl
  have hholds : p.rootHolds sv db root = true ↔ ∀ f ∈ p.bound.filters, f.keeps sv db (.start root) = true := by
    rw [Prepared.rootHolds, List.all_eq_true]
    refine forall₂_congr fun f hf => ?_
    rw [hroot.filters f hf]
    exact Iff.rfl
  constructor
  · intro hmem
    have hof := matching_subset h hmem
    exact ⟨hof, hholds.mp ((mem_matching_iff h hof).mp hmem).1⟩
  · rintro ⟨hof, hkeeps⟩
    obtain ⟨row, hrows⟩ := List.exists_mem_of_ne_nil _ (joinPaths_ne_nil sv db p.schema p.bound.resolved (.start root))
    exact (mem_matching_iff h hof).mpr ⟨hholds.mpr hkeeps, row, hrows, hrow row⟩

theorem pageKey_of_readsRoot (hroot : p.ReadsRoot) (root : Record) :
    p.pageKey sv db root = p.rootSort.map fun c => root.at_ c.column :=
  List.map_congr_left fun _ hc => if_pos (path_of_mem_rootSort hroot.orders hc)

/-- Requests with the same filters and orderings find the same root rows in the same order, whatever they join. -/
theorem rootsInOrder_congr (h : p.Named) (h' : p'.Named) (hdb : db.Sound sv p.schema) (hreads : p.ReadsRoot)
    (hschema : p'.schema = p.schema) (hroot : p'.request.root = p.request.root)
    (hfilters : p'.bound.filters = p.bound.filters) (horders : p'.bound.orders = p.bound.orders) :
    p'.rootsInOrder sv db = p.rootsInOrder sv db := by
  have hreads' : p'.ReadsRoot := ⟨hfilters ▸ hreads.filters, horders ▸ hreads.orders⟩
  have hsort : p'.rootSort = p.rootSort := by
    rw [Prepared.rootSort, Prepared.rootSort, Prepared.rootEntity, Prepared.rootEntity, horders, hschema, hroot]
  rw [rootsInOrder_eq_sortRoots h' (hschema ▸ hdb.keys) (aligned_of_root_orders hreads'.orders),
    rootsInOrder_eq_sortRoots h hdb.keys (aligned_of_root_orders hreads.orders)]
  have hperm : (p'.sortRoots sv db).Perm (p.matching sv db) := by
    refine (perm_sortRoots p' sv db).trans ?_
    refine (List.perm_ext_iff_of_nodup (distinct_nodup _) (distinct_nodup _)).mpr fun root => ?_
    change root ∈ p'.matching sv db ↔ root ∈ p.matching sv db
    rw [mem_matching_of_readsRoot h hreads, mem_matching_of_readsRoot h' hreads', hschema, hroot, hfilters]
  refine eq_sortRoots h hdb.keys hperm (p'.pageKey sv db) (fun a _ => ?_) ?_
  · rw [pageKey_of_readsRoot hreads', pageKey_of_readsRoot hreads, hsort]
    exact Std.ReflCmp.compare_self
  · have hsorted := pairwise_sortRoots p' sv db
    rwa [Prepared.rootDirs, hsort] at hsorted

/-- Without orderings root rows come in the order of their primary keys. -/
theorem pairwise_rootsInOrder (h : p.Named) (hdb : db.Sound sv p.schema) (hnone : p.bound.orders = []) :
    (p.rootsInOrder sv db).Pairwise fun a b => (sv.compare (p.rootEntity.key a) (p.rootEntity.key b)).isLE = true := by
  have horders : ∀ o ∈ p.bound.orders, o.path.isRoot = true := by simp [hnone]
  have hsort : p.rootSort = [⟨.root, p.rootEntity.pkColumn.dbName, .asc⟩] := by
    rw [Prepared.rootSort, hnone]
    rfl
  have hroot : p.request.root.index < p.schema.entities.length := h.root
  rw [rootsInOrder_eq_sortRoots h hdb.keys (aligned_of_root_orders horders)]
  refine (pairwise_sortRoots p sv db).imp_of_mem fun {a b} ha hb hle => ?_
  have hkeyed : ∀ r ∈ p.sortRoots sv db, (p.rootEntity.key r).isNull = false := fun r hr =>
    Bool.eq_false_iff.mpr fun hnull => hdb.keyed _ hroot r
      (matching_subset h (mem_sortRoots.mp hr)) (Value.isNull_eq_true.mp hnull)
  rw [Prepared.rootDirs, Prepared.pageKey, Prepared.pageKey, Prepared.rootKeyOf, Prepared.rootKeyOf, hsort] at hle
  have hrank : (sv.rank .asc (p.rootEntity.key a) (p.rootEntity.key b)).isLE = true := by
    simpa [Server.compareKeys, SortColumn.rootValue, Path.isRoot, Path.root, Entity.key] using hle
  unfold Server.rank at hrank
  rwa [hkeyed a ha, hkeyed b hb] at hrank

end RelQuery
