import Mathlib.Data.List.Forall2
import RelQuery.Proofs.Distinct
import RelQuery.Proofs.Merge.Pair

/-!
# Merging a group

A group is merged by merging neighbours until one instance is left. Nothing but the order of the group matters for
what is proved of the result, so it is described without the rounds: `MergeOf s l m` says that `m` comes from merging
the instances of `l` pairwise, in order and in any bracketing. Each property of the merge of a group is an induction
on it.
-/

namespace RelQuery

variable {s : Schema}

/-- `MergeOf s l m`: the instance `m` comes from merging the instances of `l`, in order. -/
inductive MergeOf (s : Schema) : List Instance → Instance → Prop where
  | one (a : Instance) : MergeOf s [a] a
  | pair {l₁ l₂ : List Instance} {a b : Instance} (ha : MergeOf s l₁ a) (hb : MergeOf s l₂ b) :
      MergeOf s (l₁ ++ l₂) (mergePair s a b)

theorem length_mergeNeighbours (l : List Instance) : (mergeNeighbours s l).length = (l.length + 1) / 2 := by
  fun_induction mergeNeighbours s l with
  | case1 a b rest ih =>
    simp only [List.length_cons, ih]
    omega
  | case2 l h =>
    rcases l with - | ⟨a, - | ⟨b, rest⟩⟩
    · rfl
    · simp
    · exact absurd rfl (h a b rest)

theorem mergeNeighbours_mergeOf {parts : List (List Instance)} {l : List Instance}
    (h : List.Forall₂ (MergeOf s) parts l) :
    ∃ parts', List.Forall₂ (MergeOf s) parts' (mergeNeighbours s l) ∧ parts'.flatten = parts.flatten := by
  fun_induction mergeNeighbours s l generalizing parts with
  | case1 a b rest ih =>
    cases h with
    | cons ha h =>
      cases h with
      | cons hb h =>
        obtain ⟨parts', hparts, hflat⟩ := ih h
        refine ⟨_ :: parts', .cons (ha.pair hb) hparts, ?_⟩
        simp only [List.flatten_cons, hflat, List.append_assoc]
  | case2 => exact ⟨parts, h, rfl⟩

theorem mergeRounds_mergeOf {parts : List (List Instance)} {l : List Instance} (rounds : Nat)
    (h : List.Forall₂ (MergeOf s) parts l) :
    ∃ parts', List.Forall₂ (MergeOf s) parts' (mergeRounds s rounds l) ∧ parts'.flatten = parts.flatten := by
  induction rounds generalizing parts l with
  | zero => exact ⟨parts, h, rfl⟩
  | succ rounds ih =>
    unfold mergeRounds
    split
    · exact ⟨parts, h, rfl⟩
    · obtain ⟨parts₁, h₁, hflat₁⟩ := mergeNeighbours_mergeOf h
      obtain ⟨parts₂, h₂, hflat₂⟩ := ih h₁
      exact ⟨parts₂, h₂, hflat₂.trans hflat₁⟩

/-- As many rounds as there are instances leave no more than one. -/
theorem length_mergeRounds {rounds : Nat} {l : List Instance} (h : l.length ≤ rounds + 1) :
    (mergeRounds s rounds l).length ≤ 1 := by
  induction rounds generalizing l with
  | zero => exact h
  | succ rounds ih =>
    unfold mergeRounds
    split
    · assumption
    · apply ih
      rw [length_mergeNeighbours]
      omega

theorem mergeGroup?_mergeOf {l : List Instance} (h : l ≠ []) : ∃ m, mergeGroup? s l = some m ∧ MergeOf s l m := by
  have hparts : List.Forall₂ (MergeOf s) (l.map fun a => [a]) l :=
    List.forall₂_map_left_iff.mpr (List.forall₂_same.mpr fun a _ => .one a)
  obtain ⟨parts, hforall, hflat⟩ := mergeRounds_mergeOf l.length hparts
  rw [← List.flatMap_def, List.flatMap_singleton'] at hflat
  have hlen := length_mergeRounds (s := s) (Nat.le_succ l.length)
  unfold mergeGroup?
  generalize mergeRounds s l.length l = last at hforall hlen
  cases hforall with
  | nil => exact absurd hflat.symm h
  | @cons part m parts' rest hm hrest =>
    cases hrest with
    | nil =>
      rw [List.flatten_singleton] at hflat
      exact ⟨m, rfl, hflat ▸ hm⟩
    | cons => simp at hlen

namespace MergeOf

variable {l : List Instance} {m : Instance}

theorem ne_nil (h : MergeOf s l m) : l ≠ [] := by
  induction h with
  | one a => simp
  | pair _ _ iha _ => exact List.append_ne_nil_of_left_ne_nil iha _

theorem entity (h : MergeOf s l m) {e : EntityId} (he : ∀ a ∈ l, a.entity = e) : m.entity = e := by
  induction h with
  | one a => exact he a (List.mem_singleton_self a)
  | @pair l₁ l₂ a b _ _ iha _ =>
    rw [mergePair_entity]
    exact iha fun a ha => he a (List.mem_append_left _ ha)

theorem ordered (h : MergeOf s l m) (ho : ∀ a ∈ l, a.Ordered) : m.Ordered := by
  induction h with
  | one a => exact ho a (List.mem_singleton_self a)
  | pair _ _ iha ihb =>
    exact ordered_mergePair (iha fun a ha => ho a (List.mem_append_left _ ha))
      (ihb fun b hb => ho b (List.mem_append_right _ hb))

theorem key (h : MergeOf s l m) (ho : ∀ a ∈ l, a.Ordered) {k : EntityId × Value} (hk : ∀ a ∈ l, a.key s = k) :
    m.key s = k := by
  induction h with
  | one a => exact hk a (List.mem_singleton_self a)
  | pair _ hb iha ihb =>
    have hka := iha (fun a ha => ho a (List.mem_append_left _ ha)) fun a ha => hk a (List.mem_append_left _ ha)
    have hkb := ihb (fun b hb => ho b (List.mem_append_right _ hb)) fun b hb => hk b (List.mem_append_right _ hb)
    have hob := hb.ordered fun b hb => ho b (List.mem_append_right _ hb)
    rw [key_mergePair hob.fields (hka.trans hkb.symm), hka]

theorem depth_le (h : MergeOf s l m) {n : Nat} (hd : ∀ a ∈ l, a.depth ≤ n) : m.depth ≤ n := by
  induction h with
  | one a => exact hd a (List.mem_singleton_self a)
  | @pair l₁ l₂ a b _ _ iha ihb =>
    have ha := iha fun a ha => hd a (List.mem_append_left _ ha)
    have hb := ihb fun b hb => hd b (List.mem_append_right _ hb)
    have hab := depth_mergePair (s := s) a b
    omega

theorem fields (h : MergeOf s l m) {fields : NameMap Value} (ho : NameMap.Ordered fields)
    (hf : ∀ a ∈ l, a.fields = fields) : m.fields = fields := by
  induction h with
  | one a => exact hf a (List.mem_singleton_self a)
  | pair _ _ iha ihb =>
    rw [mergePair_fields, iha fun a ha => hf a (List.mem_append_left _ ha), ihb fun b hb => hf b (List.mem_append_right _ hb),
      mergeFields_self ho]

/-- A relation that is the same in all instances stays, if merging it with itself does not change it. -/
theorem related?_const (h : MergeOf s l m) (ho : ∀ a ∈ l, a.Ordered) {name : String} {o : Option Related}
    (hr : ∀ a ∈ l, a.related? name = o) (hself : mergeLoaded s o o = o) : m.related? name = o := by
  induction h with
  | one a => exact hr a (List.mem_singleton_self a)
  | pair _ hb iha ihb =>
    have hol := fun a ha => ho a (List.mem_append_left _ ha)
    have hor := fun b hb => ho b (List.mem_append_right _ hb)
    rw [related?_mergePair (hb.ordered hor).relations, iha hol fun a ha => hr a (List.mem_append_left _ ha),
      ihb hor fun b hb => hr b (List.mem_append_right _ hb), hself]

theorem related?_many (h : MergeOf s l m) (ho : ∀ a ∈ l, a.Ordered) {name : String}
    (hr : ∀ a ∈ l, ∃ children, a.related? name = some (.many children)) :
    m.related? name = some (.many (l.flatMap (·.relatedBy name))) := by
  induction h with
  | one a =>
    obtain ⟨children, hc⟩ := hr a (List.mem_singleton_self a)
    rw [List.flatMap_singleton, Instance.relatedBy_of_related? hc, hc]
    rfl
  | pair _ hb iha ihb =>
    have hol := fun a ha => ho a (List.mem_append_left _ ha)
    have hor := fun b hb => ho b (List.mem_append_right _ hb)
    rw [related?_mergePair (hb.ordered hor).relations, iha hol fun a ha => hr a (List.mem_append_left _ ha),
      ihb hor fun b hb => hr b (List.mem_append_right _ hb), List.flatMap_append]
    rfl

/-- Relations to one that lead to instances of one key lead to what merges them. -/
theorem related?_one (h : MergeOf s l m) (ho : ∀ a ∈ l, a.Ordered) {name : String} {k : EntityId × Value}
    (hr : ∀ a ∈ l, ∃ c, a.related? name = some (.one (some c)) ∧ c.key s = k) :
    ∃ x, m.related? name = some (.one (some x)) ∧ x.key s = k ∧ MergeOf s (l.flatMap (·.relatedBy name)) x := by
  induction h with
  | one a =>
    obtain ⟨c, hc, hk⟩ := hr a (List.mem_singleton_self a)
    refine ⟨c, hc, hk, ?_⟩
    rw [List.flatMap_singleton, Instance.relatedBy_of_related? hc]
    exact .one c
  | @pair l₁ l₂ a b _ hb iha ihb =>
    have hol := fun a ha => ho a (List.mem_append_left _ ha)
    have hor := fun b hb => ho b (List.mem_append_right _ hb)
    have hob := hb.ordered hor
    obtain ⟨x, hx, hkx, hofx⟩ := iha hol fun a ha => hr a (List.mem_append_left _ ha)
    obtain ⟨y, hy, hky, hofy⟩ := ihb hor fun b hb => hr b (List.mem_append_right _ hb)
    have hyo : y.Ordered := hob.related (NameMap.mem_of_get? hy) (List.mem_singleton_self y)
    have hsame : x.key s = y.key s := hkx.trans hky.symm
    refine ⟨mergePair s x y, ?_, (key_mergePair hyo.fields hsame).trans hkx, ?_⟩
    · rw [related?_mergePair hob.relations, hx, hy, mergeLoaded, mergeRelated_some, if_pos hsame]
    · rw [List.flatMap_append]
      exact .pair hofx hofy

end MergeOf

theorem mem_groupByKey {l group : List Instance} :
    group ∈ groupByKey s l ↔ ∃ i ∈ l, group = l.filter fun j => j.key s = i.key s := by
  unfold groupByKey
  simp only [List.mem_map, mem_distinct]
  constructor
  · rintro ⟨k, ⟨i, hi, rfl⟩, rfl⟩
    exact ⟨i, hi, rfl⟩
  · rintro ⟨i, hi, rfl⟩
    exact ⟨i.key s, ⟨i, hi, rfl⟩, rfl⟩

theorem exists_mergeGroup? {l : List Instance} {i : Instance} (hi : i ∈ l) :
    ∃ m, mergeGroup? s (l.filter fun j => j.key s = i.key s) = some m ∧
      MergeOf s (l.filter fun j => j.key s = i.key s) m :=
  mergeGroup?_mergeOf (List.ne_nil_of_mem (List.mem_filter.mpr ⟨hi, decide_eq_true rfl⟩))

theorem key_of_mem_group {l : List Instance} {i a : Instance}
    (ha : a ∈ l.filter fun j => j.key s = i.key s) : a ∈ l ∧ a.key s = i.key s := by
  obtain ⟨hm, hk⟩ := List.mem_filter.mp ha
  exact ⟨hm, of_decide_eq_true hk⟩

/-- Forests merge group by group: what is known of the merge of each group is known of the merged forest, in the order
of the first appearances of the keys. -/
theorem map_mergeThen {β : Type} {l : List Instance} {tidy : Instance → Instance} {f : Instance → β}
    {g : EntityId × Value → β}
    (h : ∀ i ∈ l, ∀ m, MergeOf s (l.filter fun j => j.key s = i.key s) m → f (tidy m) = g (i.key s)) :
    (mergeThen s tidy l).map f = (distinct (l.map (·.key s))).map g := by
  unfold mergeThen groupByKey
  rw [List.filterMap_map, List.map_filterMap]
  refine List.filterMap_eq_map_iff_forall_eq_some.mpr fun k hk => ?_
  obtain ⟨i, hi, rfl⟩ := List.mem_map.mp (mem_distinct.mp hk)
  obtain ⟨m, hm, hof⟩ := exists_mergeGroup? (s := s) hi
  simp only [Function.comp_apply, hm, Option.map_some, h i hi m hof]

theorem mem_mergeThen {l : List Instance} {tidy : Instance → Instance} {i : Instance} :
    i ∈ mergeThen s tidy l ↔
      ∃ j ∈ l, ∃ m, mergeGroup? s (l.filter fun a => a.key s = j.key s) = some m ∧ i = tidy m := by
  unfold mergeThen
  simp only [List.mem_filterMap, Option.map_eq_some_iff, mem_groupByKey]
  constructor
  · rintro ⟨group, ⟨j, hj, rfl⟩, m, hm, rfl⟩
    exact ⟨j, hj, m, hm, rfl⟩
  · rintro ⟨j, hj, m, hm, rfl⟩
    exact ⟨_, ⟨j, hj, rfl⟩, m, hm, rfl⟩

theorem mergeThen_congr {l : List Instance} {tidy tidy' : Instance → Instance}
    (h : ∀ i, i.depth ≤ instancesDepth l → tidy i = tidy' i) : mergeThen s tidy l = mergeThen s tidy' l := by
  unfold mergeThen
  refine List.filterMap_congr fun group hgroup => ?_
  obtain ⟨i, hi, rfl⟩ := mem_groupByKey.mp hgroup
  obtain ⟨m, hm, hof⟩ := exists_mergeGroup? (s := s) hi
  have hd : m.depth ≤ instancesDepth l :=
    hof.depth_le fun a ha => Instance.depth_le_of_mem (key_of_mem_group ha).1
  rw [hm, Option.map_some, Option.map_some, h m hd]

end RelQuery
