import Mathlib.Data.List.Induction
import RelQuery.Proofs.Distinct
import RelQuery.Proofs.Sql.Order

/-!
# Answers of queries

What the answer of a query is, up to the order that its ordering leaves open: the tuples that its condition keeps,
sorted and cut, one by one or in groups. Groups are told apart by their keys, and hold all tuples of one key.
-/

namespace RelQuery.Sql

variable {sv : Server} {db : Database}

/-- The tuples of the joined tables that the condition keeps. -/
def Query.kept (sv : Server) (db : Database) (q : Query) : List Tuple :=
  (joinAll sv db (tuplesOf sv db q.table) q.joins).filter fun t => holdsIn sv db t q.condition

def Query.dirs (q : Query) : List SortDir := q.orderBy.map fun o => o.dir.getD .asc

/-- The first comes no later than the second in the ordering of the query. -/
def Query.Ordered (sv : Server) (db : Database) (q : Query) (g g' : List Tuple) : Prop :=
  (sv.compareKeys q.dirs (orderKeys sv db g q.orderBy) (orderKeys sv db g' q.orderBy)).isLE = true

theorem answer_eq (q : Query) :
    q.answer sv db =
      (bounded q.limit q.offset (sv.sortGroups q.dirs
        ((q.groups sv ((sv.arrange q (q.kept sv db)).map fun t => (valuesOf sv db [t] q.groupBy, t))).map
          fun group => (orderKeys sv db group q.orderBy, group)))).map fun group => cellsOfItems sv db group q.select := by
  cases q
  rfl

theorem map_bounded {α β : Type} (f : α → β) (limit offset : Option UInt64) (l : List α) :
    (bounded limit offset l).map f = bounded limit offset (l.map f) := by
  unfold bounded
  cases limit with
  | none => rw [List.map_drop]
  | some n =>
    dsimp only
    rw [List.map_take, List.map_drop]

theorem bounded_none {α : Type} (l : List α) : bounded none none l = l := rfl

theorem bounded_sublist {α : Type} (limit offset : Option UInt64) (l : List α) : (bounded limit offset l).Sublist l := by
  unfold bounded
  cases limit with
  | none => exact List.drop_sublist _ _
  | some n => exact (List.take_sublist _ _).trans (List.drop_sublist _ _)

theorem answer_plain {q : Query} (hgroup : q.groupBy = []) (hselect : q.select.any (·.expr.isAggregate) = false) :
    ∃ sorted : List Tuple, sorted.Perm (q.kept sv db) ∧ sorted.Pairwise (fun t t' => q.Ordered sv db [t] [t']) ∧
      q.answer sv db = (bounded q.limit q.offset sorted).map fun t => cellsOfItems sv db [t] q.select := by
  let arranged := sv.arrange q (q.kept sv db)
  have hgroups : q.groups sv (arranged.map fun t => (valuesOf sv db [t] q.groupBy, t)) = arranged.map fun t => [t] := by
    unfold Query.groups
    rw [hselect, hgroup]
    simp only [List.isEmpty_nil, Bool.not_true, Bool.false_eq_true, if_false, List.map_map]
    rfl
  obtain ⟨sorted, hperm, hsorted, hsort⟩ := Server.sortGroups_map sv q.dirs
    (fun group => orderKeys sv db group q.orderBy) (fun t => [t]) arranged
  refine ⟨sorted, hperm.trans (sv.arrange_perm q _), hsorted, ?_⟩
  rw [answer_eq, hgroups, hsort, ← map_bounded, List.map_map]
  rfl

section

variable {α : Type} [DecidableEq α]

/-- The groups hold the tuples of one class each, under a key of theirs, in order of first appearance. -/
def GroupsOf (key : Tuple → List Value) (cls : Tuple → α) (l : List Tuple) :
    List α → List (List Value × List Tuple) → Prop :=
  List.Forall₂ fun c g => g.2 = l.filter (fun t => cls t = c) ∧ ∃ t ∈ l, g.1 = key t ∧ cls t = c

section

variable {key : Tuple → List Value} {cls : Tuple → α} {l : List Tuple} {t : Tuple}

theorem filter_concat_other {c : α} (hc : c ≠ cls t) :
    (l ++ [t]).filter (fun u => cls u = c) = l.filter fun u => cls u = c := by
  have hnone : [t].filter (fun u => cls u = c) = [] := by simp [Ne.symm hc]
  rw [List.filter_append, hnone, List.append_nil]

theorem filter_concat_own :
    (l ++ [t]).filter (fun u => cls u = cls t) = l.filter (fun u => cls u = cls t) ++ [t] := by
  rw [List.filter_append]
  simp

/-- A tuple leaves the groups of all classes but its own as they are. -/
theorem GroupsOf.concat {cs : List α} {groups : List (List Value × List Tuple)} (h : GroupsOf key cls l cs groups)
    (hnot : cls t ∉ cs) : GroupsOf key cls (l ++ [t]) cs groups := by
  refine ((List.forall₂_and_left _ _).mpr ⟨fun c hc => hc, h⟩).imp fun c g ⟨hc, hgroup, u, hu, hk⟩ => ?_
  have hother : c ≠ cls t := fun he => hnot (he ▸ hc)
  rw [filter_concat_other hother]
  exact ⟨hgroup, u, List.mem_append_left _ hu, hk⟩

theorem GroupsOf.add (hkey : ∀ u ∈ l, sv.sameKeys (key u) (key t) = true ↔ cls u = cls t) {cs : List α}
    {groups : List (List Value × List Tuple)} (h : GroupsOf key cls l cs groups) (hnodup : cs.Nodup)
    (hnew : cls t ∉ cs → l.filter (fun u => cls u = cls t) = []) :
    GroupsOf key cls (l ++ [t]) (if cls t ∈ cs then cs else cs ++ [cls t]) (sv.addToGroup (key t) t groups) := by
  -- by the groups that are tried one after the other, until one has the key of the tuple
  induction h with
  | nil =>
    rw [if_neg List.not_mem_nil]
    exact .cons ⟨by rw [filter_concat_own, hnew List.not_mem_nil]; rfl, t, by simp, rfl, rfl⟩ .nil
  | @cons c g cs groups hg hrest ih =>
    obtain ⟨hgroup, u, hu, hk, rfl⟩ := hg
    obtain ⟨k, group⟩ := g
    dsimp only at hgroup hk
    subst hk
    obtain ⟨hfresh, hnodup⟩ := List.nodup_cons.mp hnodup
    unfold Server.addToGroup
    by_cases hsame : sv.sameKeys (key u) (key t) = true
    · have hcls : cls u = cls t := (hkey u hu).mp hsame
      rw [if_pos (hcls ▸ List.mem_cons_self ..), if_pos hsame]
      refine .cons ⟨?_, u, List.mem_append_left _ hu, rfl, rfl⟩ (GroupsOf.concat hrest (hcls ▸ hfresh))
      rw [hgroup, hcls, filter_concat_own]
    · have hcls : cls u ≠ cls t := fun he => hsame ((hkey u hu).mpr he)
      have hmem : cls t ∈ cls u :: cs ↔ cls t ∈ cs := by
        rw [List.mem_cons, or_iff_right fun he => hcls he.symm]
      have hrest' := ih hnodup fun hnot => hnew fun hin => hnot (hmem.mp hin)
      rw [if_neg hsame]
      have hfirst : (group = (l ++ [t]).filter fun w => cls w = cls u) ∧ ∃ w ∈ l ++ [t], key u = key w ∧ cls w = cls u :=
        ⟨by rw [filter_concat_other hcls, hgroup], u, List.mem_append_left _ hu, rfl, rfl⟩
      by_cases hin : cls t ∈ cs
      · rw [if_pos hin] at hrest'
        rw [if_pos (hmem.mpr hin)]
        exact .cons hfirst hrest'
      · rw [if_neg hin] at hrest'
        rw [if_neg fun h => hin (hmem.mp h), List.cons_append]
        exact .cons hfirst hrest'

theorem groupsOf_foldl (hkey : ∀ t ∈ l, ∀ u ∈ l, sv.sameKeys (key t) (key u) = true ↔ cls t = cls u) :
    GroupsOf key cls l (distinct (l.map cls))
      ((l.map fun t => (key t, t)).foldl (fun groups p => sv.addToGroup p.1 p.2 groups) []) := by
  -- from the end, since the tuples are added first to last
  induction l using List.reverseRecOn with
  | nil => exact .nil
  | append_singleton l t ih =>
    have hbefore := ih fun u hu w hw => hkey u (List.mem_append_left _ hu) w (List.mem_append_left _ hw)
    have hnew : cls t ∉ distinct (l.map cls) → l.filter (fun u => cls u = cls t) = [] := by
      intro hnot
      refine List.filter_eq_nil_iff.mpr fun u hu he => hnot (mem_distinct.mpr ?_)
      rw [← of_decide_eq_true he]
      exact List.mem_map_of_mem hu
    rw [List.map_append, List.map_append, List.foldl_append, List.map_singleton, distinct_concat]
    exact hbefore.add (fun u hu => hkey u (List.mem_append_left _ hu) t (by simp)) (distinct_nodup _) hnew

/-- Where keys tell just the classes of tuples apart, the groups are the classes. -/
theorem groupBy_eq (hkey : ∀ t ∈ l, ∀ u ∈ l, sv.sameKeys (key t) (key u) = true ↔ cls t = cls u) :
    sv.groupBy (l.map fun t => (key t, t)) = (distinct (l.map cls)).map fun c => l.filter fun t => cls t = c := by
  have hgroups := groupsOf_foldl hkey
  unfold Server.groupBy
  generalize (l.map fun t => (key t, t)).foldl _ [] = groups at hgroups
  generalize distinct (l.map cls) = classes at hgroups
  induction hgroups with
  | nil => rfl
  | cons hg _ ih => rw [List.map_cons, List.map_cons, ih, hg.1]

end

/-- A query with groups and without aggregates in its selection answers by class, where keys tell just the classes of
tuples apart. -/
theorem answer_grouped {q : Query} {cls : Tuple → α} (hgroup : q.groupBy ≠ [])
    (hkey : ∀ t ∈ q.kept sv db, ∀ u ∈ q.kept sv db,
      sv.sameKeys (valuesOf sv db [t] q.groupBy) (valuesOf sv db [u] q.groupBy) = true ↔ cls t = cls u) :
    ∃ (arranged : List Tuple) (sorted : List α), arranged.Perm (q.kept sv db) ∧
      sorted.Perm (distinct (arranged.map cls)) ∧
      sorted.Pairwise (fun c c' => q.Ordered sv db (arranged.filter fun t => cls t = c)
        (arranged.filter fun t => cls t = c')) ∧
      q.answer sv db = (bounded q.limit q.offset sorted).map fun c =>
        cellsOfItems sv db (arranged.filter fun t => cls t = c) q.select := by
  let arranged := sv.arrange q (q.kept sv db)
  have hperm := sv.arrange_perm q (q.kept sv db)
  have hgroups : q.groups sv (arranged.map fun t => (valuesOf sv db [t] q.groupBy, t)) =
      (distinct (arranged.map cls)).map fun c => arranged.filter fun t => cls t = c := by
    unfold Query.groups
    rw [if_pos (by simpa using hgroup)]
    exact groupBy_eq fun t ht u hu => hkey t (hperm.mem_iff.mp ht) u (hperm.mem_iff.mp hu)
  obtain ⟨sorted, hsortedPerm, hsorted, hsort⟩ := Server.sortGroups_map sv q.dirs
    (fun group => orderKeys sv db group q.orderBy) (fun c => arranged.filter fun t => cls t = c)
    (distinct (arranged.map cls))
  refine ⟨arranged, sorted, hperm, hsortedPerm, hsorted, ?_⟩
  rw [answer_eq, hgroups, hsort, ← map_bounded, List.map_map]
  rfl

end

end RelQuery.Sql
