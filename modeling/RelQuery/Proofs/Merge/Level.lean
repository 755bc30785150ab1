import RelQuery.Proofs.Merge.Group

/-!
# Merging level by level

An instance is tidied by merging what its relations lead to. The number of levels that tidying is given only has to
cover the depth of the instance, so it disappears: `Instance.tidy` follows the tree (`tidy_eq`), and merging a forest is
merging its groups and tidying the results (`merge_eq`).
-/

namespace RelQuery

variable {s : Schema}

/-- Merges what the relations of an instance lead to, at every level. -/
def Instance.tidy (s : Schema) (i : Instance) : Instance := tidyWithin s i.depth i

/-- Merges what a relation leads to, at every level. -/
def Related.tidy (s : Schema) : Related → Related
  | .one related => .one (related.map (Instance.tidy s))
  | .many related => .many (merge s related)

theorem tidyWithin_succ (levels : Nat) (i : Instance) :
    tidyWithin s (levels + 1) i =
      { i with
        relations := i.relations.map fun p =>
          (p.1,
            match p.2 with
            | .one related => .one (related.map (tidyWithin s levels))
            | .many related => .many (mergeThen s (tidyWithin s levels) related)) } := rfl

theorem tidyWithin_of_depth_eq_zero {i : Instance} (h : i.depth = 0) (levels : Nat) : tidyWithin s levels i = i := by
  cases levels with
  | zero => rfl
  | succ levels =>
    obtain ⟨e, fields, relations⟩ := i
    cases relations with
    | nil => rfl
    | cons p rest =>
      have hlt := Related.depth_lt (i := ⟨e, fields, p :: rest⟩) (List.mem_cons_self ..)
      omega

theorem tidyWithin_eq_of_le {levels levels' : Nat} {i : Instance} (h : i.depth ≤ levels) (h' : i.depth ≤ levels') :
    tidyWithin s levels i = tidyWithin s levels' i := by
  induction levels generalizing levels' i with
  | zero =>
    have h0 : i.depth = 0 := Nat.le_zero.mp h
    rw [tidyWithin_of_depth_eq_zero h0, tidyWithin_of_depth_eq_zero h0]
  | succ levels ih =>
    cases levels' with
    | zero =>
      have h0 : i.depth = 0 := Nat.le_zero.mp h'
      rw [tidyWithin_of_depth_eq_zero h0, tidyWithin_of_depth_eq_zero h0]
    | succ levels' =>
      rw [tidyWithin_succ, tidyWithin_succ]
      congr 1
      refine List.map_congr_left fun p hp => ?_
      obtain ⟨name, r⟩ := p
      congr 1
      have hr := Related.depth_lt hp
      cases r with
      | one o =>
        cases o with
        | none => rfl
        | some c =>
          have hc : c.depth < i.depth := Instance.depth_lt hp (List.mem_singleton_self c)
          have hlevels : tidyWithin s levels c = tidyWithin s levels' c := ih (by omega) (by omega)
          simp only [Option.map_some, hlevels]
      | many l =>
        have hl : instancesDepth l < i.depth := hr
        have hlevels : ∀ c : Instance, c.depth ≤ instancesDepth l → tidyWithin s levels c = tidyWithin s levels' c :=
          fun c hc => ih (by omega) (by omega)
        dsimp only
        rw [mergeThen_congr hlevels]

theorem tidyWithin_eq_tidy {levels : Nat} {i : Instance} (h : i.depth ≤ levels) : tidyWithin s levels i = i.tidy s :=
  tidyWithin_eq_of_le h (Nat.le_refl _)

theorem merge_eq (l : List Instance) : merge s l = mergeThen s (Instance.tidy s) l :=
  mergeThen_congr fun _ hi => tidyWithin_eq_tidy hi

theorem tidy_eq (i : Instance) :
    i.tidy s = { i with relations := i.relations.map fun p => (p.1, p.2.tidy s) } := by
  rw [← tidyWithin_eq_tidy (Nat.le_succ i.depth), tidyWithin_succ]
  congr 1
  refine List.map_congr_left fun p hp => ?_
  obtain ⟨name, r⟩ := p
  congr 1
  cases r with
  | one o =>
    cases o with
    | none => rfl
    | some c =>
      have hc : c.depth < i.depth := Instance.depth_lt hp (List.mem_singleton_self c)
      simp only [Related.tidy, Option.map_some]
      rw [tidyWithin_eq_tidy (Nat.le_of_lt hc)]
  | many l =>
    have hl : instancesDepth l < i.depth := Related.depth_lt hp
    dsimp only [Related.tidy]
    rw [merge_eq, mergeThen_congr fun c hc => tidyWithin_eq_tidy (Nat.le_trans hc (Nat.le_of_lt hl))]

theorem tidy_entity (i : Instance) : (i.tidy s).entity = i.entity := by
  rw [tidy_eq]

theorem tidy_fields (i : Instance) : (i.tidy s).fields = i.fields := by
  rw [tidy_eq]

theorem tidy_relations (i : Instance) : (i.tidy s).relations = i.relations.map fun p => (p.1, p.2.tidy s) := by
  rw [tidy_eq]

theorem key_tidy (i : Instance) : (i.tidy s).key s = i.key s := by
  rw [tidy_eq]
  rfl

theorem related?_tidy (i : Instance) (name : String) :
    (i.tidy s).related? name = (i.related? name).map (Related.tidy s) := by
  unfold Instance.related?
  rw [tidy_relations, NameMap.get?_map]

/-- The keys of a merged forest are those of the forest, in order of first appearance. -/
theorem map_key_merge {l : List Instance} (h : ∀ i ∈ l, i.Ordered) :
    (merge s l).map (·.key s) = distinct (l.map (·.key s)) := by
  rw [merge_eq, map_mergeThen (g := id), List.map_id]
  intro i hi m hm
  rw [key_tidy]
  exact hm.key (fun a ha => h a (key_of_mem_group ha).1) fun a ha => (key_of_mem_group ha).2

/-- Where instances of one key have the same fields, a merged forest has the fields of the forest, those of each key once,
in order of first appearance. -/
theorem map_fields_merge {l : List Instance} (hordered : ∀ i ∈ l, NameMap.Ordered i.fields)
    (hsame : ∀ i ∈ l, ∀ j ∈ l, i.key s = j.key s → i.fields = j.fields) :
    (merge s l).map (fun i => (i.entity, i.fields)) = distinct (l.map fun i => (i.entity, i.fields)) := by
  let fieldsAt : EntityId × Value → EntityId × NameMap Value := fun k =>
    (k.1, ((l.find? fun i => i.key s = k).map (·.fields)).getD [])
  have hfields : ∀ i ∈ l, fieldsAt (i.key s) = (i.entity, i.fields) := by
    intro i hi
    obtain ⟨j, hj⟩ := Option.isSome_iff_exists.mp
      (List.find?_isSome.mpr ⟨i, hi, decide_eq_true rfl⟩ : (l.find? fun j => j.key s = i.key s).isSome = true)
    have hkey : j.key s = i.key s := by simpa using List.find?_some hj
    refine Prod.ext rfl ?_
    dsimp only [fieldsAt]
    rw [hj, Option.map_some, Option.getD_some, hsame j (List.mem_of_find?_eq_some hj) i hi hkey]
  rw [merge_eq, map_mergeThen (g := fieldsAt) fun i hi m hm => ?_]
  · have hsplit : l.map (fun i => (i.entity, i.fields)) = (l.map (·.key s)).map fieldsAt := by
      rw [List.map_map]
      exact List.map_congr_left fun i hi => (hfields i hi).symm
    refine hsplit ▸ (distinct_map_of_injective (f := fieldsAt) ?_).symm
    refine List.forall_mem_map.mpr fun i hi => List.forall_mem_map.mpr fun j hj he => ?_
    rw [hfields i hi, hfields j hj] at he
    obtain ⟨hentity, hsameFields⟩ := Prod.mk.inj he
    unfold Instance.key Instance.pk Instance.get?
    rw [hentity, hsameFields]
  · have hgroup := fun a ha => key_of_mem_group (s := s) (l := l) (i := i) (a := a) ha
    have hentity : m.entity = i.entity := hm.entity fun a ha => congrArg Prod.fst (hgroup a ha).2
    have hmerged : m.fields = i.fields := hm.fields (hordered i hi) fun a ha =>
      hsame a (hgroup a ha).1 i hi (hgroup a ha).2
    rw [tidy_entity, tidy_fields, hfields i hi, hentity, hmerged]

/-- What merging makes of the instances of one key. -/
def mergedAt (s : Schema) (l : List Instance) (k : EntityId × Value) : Option Instance :=
  (mergeGroup? s (l.filter fun i => i.key s = k)).map (Instance.tidy s)

theorem merge_eq_filterMap (l : List Instance) : merge s l = (distinct (l.map (·.key s))).filterMap (mergedAt s l) := by
  rw [merge_eq, mergeThen, groupByKey, List.filterMap_map]
  rfl

theorem key_of_mergedAt {l : List Instance} (h : ∀ i ∈ l, i.Ordered) {k : EntityId × Value} {m : Instance}
    (hm : mergedAt s l k = some m) : m.key s = k := by
  obtain ⟨m', hm', rfl⟩ := Option.map_eq_some_iff.mp hm
  have hne : l.filter (fun i => i.key s = k) ≠ [] := by
    rintro he
    rw [he] at hm'
    cases hm'
  obtain ⟨m'', hm'', hof⟩ := mergeGroup?_mergeOf (s := s) hne
  cases hm''.symm.trans hm'
  rw [key_tidy]
  exact hof.key (fun a ha => h a (List.mem_filter.mp ha).1) fun a ha => of_decide_eq_true (List.mem_filter.mp ha).2

theorem mergedAt_filter {l : List Instance} {keep : EntityId × Value → Bool} {k : EntityId × Value}
    (hk : keep k = true) : mergedAt s (l.filter fun i => keep (i.key s)) k = mergedAt s l k := by
  unfold mergedAt
  rw [List.filter_filter]
  congr 2
  refine List.filter_congr fun i _ => ?_
  by_cases hi : i.key s = k
  · simp [hi, hk]
  · simp [hi]

/-- Merging the instances of some keys gives those of these keys among all merged ones. -/
theorem merge_filter {l : List Instance} (h : ∀ i ∈ l, i.Ordered) (keep : EntityId × Value → Bool) :
    merge s (l.filter fun i => keep (i.key s)) = (merge s l).filter fun i => keep (i.key s) := by
  have hkeys : (l.filter fun i => keep (i.key s)).map (·.key s) = (l.map (·.key s)).filter keep := by
    rw [List.filter_map]
    rfl
  rw [merge_eq_filterMap, merge_eq_filterMap, hkeys, distinct_filter, List.filterMap_filter, List.filter_filterMap]
  refine List.filterMap_congr fun k _ => ?_
  rcases hm : mergedAt s l k with - | m
  · by_cases hk : keep k = true
    · rw [if_pos hk, mergedAt_filter hk, hm]
      rfl
    · rw [if_neg hk]
      rfl
  · rw [Option.filter_some, key_of_mergedAt h hm]
    by_cases hk : keep k = true
    · rw [if_pos hk, if_pos hk, mergedAt_filter hk, hm]
    · rw [if_neg hk, if_neg hk]

/-- An instance of a merged forest is the tidied merge of some of the instances. -/
theorem exists_mergeOf_of_mem_merge {l : List Instance} {c : Instance} (hc : c ∈ merge s l) :
    ∃ group ⊆ l, ∃ m, MergeOf s group m ∧ c = m.tidy s := by
  rw [merge_eq] at hc
  obtain ⟨i, hi, m, hm, rfl⟩ := mem_mergeThen.mp hc
  obtain ⟨m', hm', hof⟩ := exists_mergeGroup? (s := s) hi
  cases hm.symm.trans hm'
  exact ⟨_, fun _ => List.mem_of_mem_filter, m, hof, rfl⟩

/-- An instance of a merged forest is tidied, and no deeper than the forest. -/
theorem exists_tidy_of_mem_merge {l : List Instance} (h : ∀ i ∈ l, i.Ordered) {c : Instance} (hc : c ∈ merge s l) :
    ∃ m : Instance, m.Ordered ∧ m.depth ≤ instancesDepth l ∧ c = m.tidy s := by
  obtain ⟨group, hgroup, m, hof, rfl⟩ := exists_mergeOf_of_mem_merge hc
  refine ⟨m, hof.ordered fun a ha => h a (hgroup ha), ?_, rfl⟩
  exact hof.depth_le fun a ha => Instance.depth_le_of_mem (hgroup ha)

theorem exists_tidy_of_mem_related {r : Related} (h : ∀ x ∈ r.instances, x.Ordered) {c : Instance}
    (hc : c ∈ (r.tidy s).instances) : ∃ m : Instance, m.Ordered ∧ m.depth ≤ r.depth ∧ c = m.tidy s := by
  cases r with
  | one o =>
    cases o with
    | none => cases hc
    | some x =>
      have hx : x ∈ (Related.one (some x)).instances := List.mem_singleton_self x
      exact ⟨x, h x hx, Related.depth_le_iff.mp (Nat.le_refl _) x hx, List.mem_singleton.mp hc⟩
  | many l => exact exists_tidy_of_mem_merge h hc

/-- What each tidied instance has, given that those below it have it, all instances of a merged forest have. -/
theorem tidy_induction {P : Instance → Prop}
    (step : ∀ i : Instance, i.Ordered →
      (∀ p ∈ (i.tidy s).relations, ∀ c ∈ p.2.instances, P c) → P (i.tidy s))
    {i : Instance} (h : i.Ordered) : P (i.tidy s) := by
  have key : ∀ n (i : Instance), i.depth < n → i.Ordered → P (i.tidy s) := by
    intro n
    induction n with
    | zero =>
      intro i hi
      omega
    | succ n ih =>
      intro i hi ho
      refine step i ho fun p hp c hc => ?_
      rw [tidy_relations] at hp
      obtain ⟨q, hq, rfl⟩ := List.mem_map.mp hp
      obtain ⟨m, hm, hd, rfl⟩ := exists_tidy_of_mem_related (fun x hx => ho.related hq hx) hc
      have hlt := Related.depth_lt hq
      exact ih m (by omega) hm
  exact key _ i (Nat.lt_succ_self _) h

theorem ordered_tidy {i : Instance} (h : i.Ordered) : (i.tidy s).Ordered := by
  refine tidy_induction (fun i ho ih => ?_) h
  refine Instance.ordered_iff.mpr ⟨?_, ?_, ih⟩
  · rw [tidy_fields]
    exact ho.fields
  · rw [tidy_relations]
    exact ho.relations.map _

theorem ordered_merge {l : List Instance} (h : ∀ i ∈ l, i.Ordered) : ∀ i ∈ merge s l, i.Ordered := by
  intro i hi
  obtain ⟨m, hm, -, rfl⟩ := exists_tidy_of_mem_merge h hi
  exact ordered_tidy hm

end RelQuery
