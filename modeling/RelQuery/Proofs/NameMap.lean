import Mathlib.Data.List.Nodup
import Mathlib.Data.String.Basic
import RelQuery.NameMap

/-!
# Maps keyed by names: look-up and order

A map whose names ascend is determined by its look-ups (`ordered_ext`), and every operation keeps the order. The
look-ups of the maps built from lists of pairs are those of the list: `ofPairs` lets the last pair of a name win,
`ofFirst` the first.
-/

namespace RelQuery.NameMap

universe u v
variable {α : Type u} {β : Type v}

theorem get?_cons (name key : String) (value : α) (m : NameMap α) :
    NameMap.get? ((name, value) :: m) key = if name = key then some value else NameMap.get? m key := rfl

theorem get?_put (m : NameMap α) (name key : String) (value : α) :
    (put name value m).get? key = if key = name then some value else m.get? key := by
  by_cases h : key = name
  · subst h
    rw [get?_put_self, if_pos rfl]
  · rw [get?_put_of_ne m value h, if_neg h]

theorem mem_of_get? {m : NameMap α} {name : String} {value : α} (h : m.get? name = some value) :
    (name, value) ∈ m := by
  induction m with
  | nil => cases h
  | cons p rest ih =>
    obtain ⟨k, v⟩ := p
    rw [get?_cons] at h
    split at h
    · rename_i hk
      cases h
      rw [hk]
      exact List.mem_cons_self ..
    · exact List.mem_cons_of_mem _ (ih h)

theorem get?_eq_none_iff {m : NameMap α} {name : String} : m.get? name = none ↔ name ∉ m.map (·.1) := by
  induction m with
  | nil => simp
  | cons p rest ih =>
    obtain ⟨k, v⟩ := p
    by_cases hk : k = name
    · simp [get?_cons, hk]
    · have hk' : ¬ name = k := fun e => hk e.symm
      simp [get?_cons, hk, hk', ih]

theorem exists_get?_of_mem {m : NameMap α} {name : String} (h : name ∈ m.map (·.1)) :
    ∃ value, m.get? name = some value := by
  rcases hg : m.get? name with - | value
  · exact absurd h (get?_eq_none_iff.mp hg)
  · exact ⟨value, rfl⟩

theorem get?_append (m m' : NameMap α) (name : String) :
    NameMap.get? (m ++ m') name = (m.get? name).or (m'.get? name) := by
  induction m with
  | nil => simp
  | cons p rest ih =>
    obtain ⟨k, v⟩ := p
    rw [List.cons_append, get?_cons, get?_cons, ih]
    split <;> rfl

theorem get?_map (f : α → β) (m : NameMap α) (name : String) :
    NameMap.get? (m.map fun p => (p.1, f p.2)) name = (m.get? name).map f := by
  induction m with
  | nil => rfl
  | cons p rest ih =>
    obtain ⟨k, v⟩ := p
    rw [List.map_cons, get?_cons, get?_cons, ih]
    split <;> rfl

theorem get?_of_mem {m : NameMap α} (h : (m.map (·.1)).Nodup) {name : String} {value : α}
    (hm : (name, value) ∈ m) : m.get? name = some value := by
  induction m with
  | nil => cases hm
  | cons p rest ih =>
    obtain ⟨k, v⟩ := p
    rw [List.map_cons, List.nodup_cons] at h
    rcases List.mem_cons.mp hm with he | hr
    · cases he
      rw [get?_cons, if_pos rfl]
    · have hk : k ≠ name := by
        intro e
        exact h.1 (e ▸ List.mem_map_of_mem (f := (·.1)) hr)
      rw [get?_cons, if_neg hk, ih h.2 hr]

/-- Among things of one name that stand for one value, the name stands for it. -/
theorem get?_map_of_unique {γ : Type v} {l : List γ} {name : γ → String} {value : γ → α} {a : γ} (ha : a ∈ l)
    (hsame : ∀ b ∈ l, name b = name a → value b = value a) :
    NameMap.get? (l.map fun b => (name b, value b)) (name a) = some (value a) := by
  induction l with
  | nil => cases ha
  | cons b rest ih =>
    rw [List.map_cons, get?_cons]
    obtain ⟨hb, hrest⟩ := List.forall_mem_cons.mp hsame
    split
    · rename_i he
      rw [hb he]
    · rename_i hne
      rcases List.mem_cons.mp ha with rfl | ha
      · exact absurd rfl hne
      · exact ih ha hrest

theorem ordered_cons {p : String × α} {m : NameMap α} :
    Ordered (p :: m) ↔ (∀ q ∈ m, p.1 < q.1) ∧ Ordered m := by
  simp [Ordered]

theorem Ordered.nodup {m : NameMap α} (h : Ordered m) : (m.map (·.1)).Nodup :=
  h.imp fun hlt => ne_of_lt hlt

theorem Ordered.get?_eq_some_iff {m : NameMap α} (h : Ordered m) {name : String} {value : α} :
    m.get? name = some value ↔ (name, value) ∈ m :=
  ⟨mem_of_get?, get?_of_mem h.nodup⟩

theorem Ordered.map {m : NameMap α} (h : Ordered m) (f : α → β) :
    Ordered (m.map fun p => (p.1, f p.2)) := by
  unfold Ordered at *
  rwa [List.map_map, show ((fun p : String × β => p.1) ∘ fun p : String × α => (p.1, f p.2)) = (·.1) from rfl]

theorem mem_put {m : NameMap α} {name : String} {value : α} {p : String × α}
    (h : p ∈ put name value m) : p = (name, value) ∨ p ∈ m := by
  induction m with
  | nil => exact .inl (by simpa [put] using h)
  | cons q rest ih =>
    obtain ⟨k, v⟩ := q
    unfold put at h
    split at h
    · rename_i hk
      rcases List.mem_cons.mp h with he | hr
      · exact .inl (by rw [he, hk])
      · exact .inr (List.mem_cons_of_mem _ hr)
    · split at h
      · exact (List.mem_cons.mp h).imp_right id
      · rcases List.mem_cons.mp h with he | hr
        · exact .inr (by rw [he]; exact List.mem_cons_self ..)
        · exact (ih hr).imp_right (List.mem_cons_of_mem _)

theorem Ordered.put {m : NameMap α} (h : Ordered m) (name : String) (value : α) :
    Ordered (put name value m) := by
  induction m with
  | nil => simp [NameMap.put, Ordered]
  | cons p rest ih =>
    obtain ⟨k, v⟩ := p
    obtain ⟨hlt, hrest⟩ := ordered_cons.mp h
    unfold NameMap.put
    split
    · exact ordered_cons.mpr ⟨hlt, hrest⟩
    · rename_i hne
      split
      · rename_i hk
        refine ordered_cons.mpr ⟨?_, h⟩
        intro q hq
        rcases List.mem_cons.mp hq with he | hr
        · rw [he]
          exact hk
        · exact hk.trans (hlt q hr)
      · rename_i hnk
        have hk : k < name := lt_of_le_of_ne (not_lt.mp hnk) (fun e => hne e.symm)
        refine ordered_cons.mpr ⟨?_, ih hrest⟩
        intro q hq
        rcases mem_put hq with he | hr
        · rw [he]
          exact hk
        · exact hlt q hr

theorem ordered_ext {m m' : NameMap α} (h : Ordered m) (h' : Ordered m')
    (hget : ∀ name, m.get? name = m'.get? name) : m = m' := by
  have hmem : ∀ p, p ∈ m ↔ p ∈ m' := by
    rintro ⟨name, value⟩
    rw [← h.get?_eq_some_iff, hget name, h'.get?_eq_some_iff]
  have hperm : m.Perm m' :=
    (List.perm_ext_iff_of_nodup (List.Nodup.of_map _ h.nodup) (List.Nodup.of_map _ h'.nodup)).mpr hmem
  refine hperm.eq_of_pairwise ?_ (List.pairwise_map.mp h) (List.pairwise_map.mp h')
  intro p q _ _ hpq hqp
  exact absurd hpq (lt_asymm hqp)

theorem get?_drop {m : NameMap α} (h : Ordered m) (name key : String) :
    (drop name m).get? key = if key = name then none else m.get? key := by
  induction m with
  | nil => split <;> rfl
  | cons p rest ih =>
    obtain ⟨k, v⟩ := p
    have hnodup := h.nodup
    rw [List.map_cons, List.nodup_cons] at hnodup
    rw [drop, get?_cons]
    by_cases hk : k = name
    · rw [if_pos hk]
      split
      case isTrue hkey =>
        rw [hkey, ← hk]
        exact get?_eq_none_iff.mpr hnodup.1
      case isFalse hkey => rw [if_neg fun he => hkey (he.symm.trans hk)]
    · rw [if_neg hk, get?_cons, ih (ordered_cons.mp h).2]
      by_cases hkey : k = key
      · rw [if_pos hkey, if_pos hkey, if_neg fun he => hk (hkey.trans he)]
      · rw [if_neg hkey, if_neg hkey]

theorem drop_sublist (name : String) (m : NameMap α) : (drop name m).Sublist m := by
  induction m with
  | nil => exact .slnil
  | cons p rest ih =>
    rw [drop]
    split
    · exact List.sublist_cons_self ..
    · exact ih.cons_cons _

theorem Ordered.drop {m : NameMap α} (h : Ordered m) (name : String) : Ordered (drop name m) :=
  h.sublist ((drop_sublist name m).map _)

/-- The map of a list of pairs, of which the first of a name counts. -/
def ofFirst (pairs : List (String × α)) : NameMap α :=
  pairs.foldr (fun p m => put p.1 p.2 m) []

theorem ofFirst_cons (p : String × α) (pairs : List (String × α)) :
    ofFirst (p :: pairs) = put p.1 p.2 (ofFirst pairs) := rfl

theorem ordered_ofFirst (pairs : List (String × α)) : Ordered (ofFirst pairs) := by
  induction pairs with
  | nil => simp [ofFirst, Ordered]
  | cons p rest ih => exact ih.put p.1 p.2

theorem get?_ofFirst (pairs : List (String × α)) (name : String) :
    (ofFirst pairs).get? name = NameMap.get? pairs name := by
  induction pairs with
  | nil => rfl
  | cons p rest ih =>
    obtain ⟨k, v⟩ := p
    rw [ofFirst_cons, get?_put, get?_cons, ih]
    exact if_congr eq_comm rfl rfl

/-- A new name can as well come last. -/
theorem put_ofFirst {pairs : List (String × α)} {name : String} (h : NameMap.get? pairs name = none) (value : α) :
    put name value (ofFirst pairs) = ofFirst (pairs ++ [(name, value)]) := by
  refine ordered_ext ((ordered_ofFirst _).put _ _) (ordered_ofFirst _) fun key => ?_
  rw [get?_put, get?_ofFirst, get?_ofFirst, get?_append, get?_cons, get?_nil]
  by_cases hk : key = name
  · subst hk
    rw [if_pos rfl, if_pos rfl, h, Option.none_or]
  · have hk' : ¬ name = key := fun e => hk e.symm
    rw [if_neg hk, if_neg hk', Option.or_none]

/-- A name that stands for something already has no further effect. -/
theorem ofFirst_append_cons {pairs rest : List (String × α)} {name : String}
    (h : (NameMap.get? pairs name).isSome = true) (other : α) :
    ofFirst (pairs ++ (name, other) :: rest) = ofFirst (pairs ++ rest) := by
  refine ordered_ext (ordered_ofFirst _) (ordered_ofFirst _) fun key => ?_
  rw [get?_ofFirst, get?_ofFirst, get?_append, get?_append, get?_cons]
  by_cases hk : name = key
  · subst hk
    obtain ⟨v, hv⟩ := Option.isSome_iff_exists.mp h
    rw [hv, Option.some_or, Option.some_or]
  · rw [if_neg hk]

theorem ofPairs_eq_ofFirst (pairs : List (String × α)) : ofPairs pairs = ofFirst pairs.reverse := by
  rw [ofPairs, ofFirst, List.foldr_reverse]

theorem ordered_ofPairs (pairs : List (String × α)) : Ordered (ofPairs pairs) := by
  rw [ofPairs_eq_ofFirst]
  exact ordered_ofFirst _

theorem get?_ofPairs_of_mem {pairs : List (String × α)} (h : (pairs.map (·.1)).Nodup) {name : String} {value : α}
    (hm : (name, value) ∈ pairs) : (ofPairs pairs).get? name = some value := by
  rw [ofPairs_eq_ofFirst, get?_ofFirst]
  refine get?_of_mem ?_ (List.mem_reverse.mpr hm)
  rw [List.map_reverse]
  exact List.nodup_reverse.mpr h

/-- Pairs that give each name one value make the map of these values. -/
theorem get?_ofPairs_map {γ : Type v} (names : List γ) (name : γ → String) (value : String → α) (key : String) :
    (ofPairs (names.map fun c => (name c, value (name c)))).get? key =
      if key ∈ names.map name then some (value key) else none := by
  rw [ofPairs_eq_ofFirst, get?_ofFirst, ← List.map_reverse]
  have hrev : (key ∈ names.map name) ↔ (key ∈ names.reverse.map name) := by simp
  rw [if_congr hrev rfl rfl]
  induction names.reverse with
  | nil => rfl
  | cons c rest ih =>
    rw [List.map_cons, get?_cons, ih]
    by_cases hk : name c = key
    · simp [hk]
    · have hk' : ¬ key = name c := fun e => hk e.symm
      simp [hk, hk']

end RelQuery.NameMap
