import RelQuery.Proofs.Merge.Level

/-!
# Merged forests are in normal form

In a merged forest no key appears twice, neither among the roots nor in any list below them, and merging it again
changes nothing. Both facts about the levels below are proved along the tidied tree, from the lists up
(`tidy_induction`).
-/

namespace RelQuery

variable {s : Schema}

/-- No list that a relation of the instance leads to, at any depth, holds two instances of one key. -/
def Instance.Merged (s : Schema) (i : Instance) : Prop :=
  ∀ j, Instance.Within j i → ∀ name l, (name, Related.many l) ∈ j.relations → (l.map (·.key s)).Nodup

theorem Instance.merged_iff {i : Instance} :
    i.Merged s ↔ (∀ name l, (name, Related.many l) ∈ i.relations → (l.map (·.key s)).Nodup) ∧
      ∀ p ∈ i.relations, ∀ c ∈ p.2.instances, c.Merged s :=
  Instance.forall_within

theorem nodup_key_merge {l : List Instance} (h : ∀ i ∈ l, i.Ordered) : ((merge s l).map (·.key s)).Nodup := by
  rw [map_key_merge h]
  exact distinct_nodup _

/-- The lists right below a tidied instance are merged. -/
theorem nodup_key_of_mem_tidy {i : Instance} (h : i.Ordered) {name : String} {l : List Instance}
    (hl : (name, Related.many l) ∈ (i.tidy s).relations) : (l.map (·.key s)).Nodup := by
  rw [tidy_relations] at hl
  obtain ⟨⟨name', r⟩, hr, he⟩ := List.mem_map.mp hl
  cases r with
  | one o => cases he
  | many children =>
    cases he
    exact nodup_key_merge fun c hc => h.related hr hc

theorem merged_tidy {i : Instance} (h : i.Ordered) : (i.tidy s).Merged s := by
  refine tidy_induction (fun i ho ih => ?_) h
  exact Instance.merged_iff.mpr ⟨fun name l hl => nodup_key_of_mem_tidy ho hl, ih⟩

theorem filter_key_eq_singleton {l : List Instance} (h : (l.map (·.key s)).Nodup) {i : Instance} (hi : i ∈ l) :
    (l.filter fun j => j.key s = i.key s) = [i] := by
  induction l with
  | nil => cases hi
  | cons a rest ih =>
    rw [List.map_cons, List.nodup_cons] at h
    rcases List.mem_cons.mp hi with rfl | hrest
    · have hnone : (rest.filter fun j => j.key s = i.key s) = [] := by
        refine List.filter_eq_nil_iff.mpr fun j hj hk => ?_
        exact h.1 (of_decide_eq_true hk ▸ List.mem_map_of_mem hj)
      rw [List.filter_cons_of_pos (by simp), hnone]
    · have ha : a.key s ≠ i.key s := fun e => h.1 (e ▸ List.mem_map_of_mem hrest)
      rw [List.filter_cons_of_neg (by simpa using ha), ih h.2 hrest]

/-- Without repeated keys there is nothing to merge on the first level. -/
theorem merge_of_nodup {l : List Instance} (h : (l.map (·.key s)).Nodup) : merge s l = l.map (Instance.tidy s) := by
  unfold merge
  rw [show mergeThen s (tidyWithin s (instancesDepth l)) l = mergeThen s (Instance.tidy s) l from merge_eq l]
  unfold mergeThen groupByKey
  rw [distinct_eq_self h, List.map_map, List.filterMap_map]
  refine List.filterMap_eq_map_iff_forall_eq_some.mpr fun i hi => ?_
  simp only [Function.comp_apply]
  rw [filter_key_eq_singleton h hi]
  rfl

theorem Related.tidy_eq_self {r : Related} (hc : ∀ c ∈ r.instances, c.tidy s = c)
    (hl : ∀ l, r = .many l → (l.map (·.key s)).Nodup) : r.tidy s = r := by
  cases r with
  | one o =>
    cases o with
    | none => rfl
    | some c =>
      have h := hc c (List.mem_singleton_self c)
      simp only [Related.tidy, Option.map_some, h]
  | many l =>
    have h : l.map (Instance.tidy s) = l := (List.map_congr_left hc).trans (List.map_id' l)
    simp only [Related.tidy]
    rw [merge_of_nodup (hl l rfl), h]

theorem tidy_tidy {i : Instance} (h : i.Ordered) : (i.tidy s).tidy s = i.tidy s := by
  refine tidy_induction (P := fun x => x.tidy s = x) (fun i ho ih => ?_) h
  have hrel : ((i.tidy s).relations.map fun p => (p.1, p.2.tidy s)) = (i.tidy s).relations := by
    refine Eq.trans (List.map_congr_left fun p hp => ?_) (List.map_id' _)
    obtain ⟨name, r⟩ := p
    have hr : r.tidy s = r := by
      refine Related.tidy_eq_self (ih _ hp) fun l hl => ?_
      subst hl
      exact nodup_key_of_mem_tidy ho hp
    rw [hr]
  rw [tidy_eq (i.tidy s), hrel, Instance.eta]

theorem merge_merge {l : List Instance} (h : ∀ i ∈ l, i.Ordered) : merge s (merge s l) = merge s l := by
  rw [merge_of_nodup (nodup_key_merge h)]
  refine Eq.trans (List.map_congr_left fun i hi => ?_) (List.map_id' _)
  obtain ⟨m, hm, -, rfl⟩ := exists_tidy_of_mem_merge h hi
  exact tidy_tidy hm

/-- Merging leaves each key of a forest once, in order of first appearance, repeats no key in any list below, and is
idempotent. -/
theorem merge_normal_form (s : Schema) (l : List Instance) (h : ∀ i ∈ l, i.Ordered) :
    (merge s l).map (·.key s) = (l.map (·.key s)).eraseDups ∧ (∀ i ∈ merge s l, i.Merged s) ∧
      merge s (merge s l) = merge s l := by
  refine ⟨?_, ?_, merge_merge h⟩
  · rw [map_key_merge h, distinct_eq_eraseDups]
  · intro i hi
    obtain ⟨m, hm, -, rfl⟩ := exists_tidy_of_mem_merge h hi
    exact merged_tidy hm

/-- An author with one book, whose publisher lists one further book. -/
def authorRow (author book other : Value) : Instance :=
  ⟨⟨0⟩, [("id", author)], [("books", .many [⟨⟨1⟩, [("id", book)],
    [("publisher", .one (some ⟨⟨2⟩, [("id", .int 5)], [("books", .many [⟨⟨1⟩, [("id", other)], []⟩])]⟩))]⟩])]⟩

def librarySchema : Schema :=
  ⟨[⟨"Author", "authors", "id", [⟨"id", "id", false⟩]⟩, ⟨"Book", "books", "id", [⟨"id", "id", false⟩]⟩,
    ⟨"Publisher", "publishers", "id", [⟨"id", "id", false⟩]⟩], []⟩

/-- The rows of two authors, one of them without a key, in turns. -/
def libraryRows : List Instance :=
  [authorRow (.int 1) (.int 10) (.int 11), authorRow .null (.int 12) (.int 13), authorRow (.int 1) (.int 10) (.int 14),
    authorRow .null (.int 12) (.int 13)]

theorem ordered_authorRow (author book other : Value) : (authorRow author book other).Ordered := by
  simp [authorRow, NameMap.Ordered, Related.instances]

theorem merge_libraryRows :
    (∀ i ∈ libraryRows, i.Ordered) ∧
      (merge librarySchema libraryRows).map (·.key librarySchema) =
        (libraryRows.map (·.key librarySchema)).eraseDups ∧
      (∀ i ∈ merge librarySchema libraryRows, i.Merged librarySchema) ∧
      merge librarySchema (merge librarySchema libraryRows) = merge librarySchema libraryRows := by
  have h : ∀ i ∈ libraryRows, i.Ordered := by
    simp [libraryRows, ordered_authorRow]
  exact ⟨h, merge_normal_form librarySchema libraryRows h⟩

end RelQuery
