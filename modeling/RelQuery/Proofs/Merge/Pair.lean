import RelQuery.Proofs.Instance

/-!
# Merging two instances

What the merge of two instances holds under each name depends only on what the two hold there: `mergeValue` says so for
fields, `mergeLoaded` for relations. From this follow the key, the order of the names and the depth of the merge.
-/

namespace RelQuery

variable {s : Schema}

/-- What is kept of the values of one field: ours unless it is null and there is another. -/
def mergeValue : Option Value → Option Value → Option Value
  | some v, some w => if v.isNull then some w else some v
  | some v, none => some v
  | none, w => w

theorem mergeFields_cons (ours : NameMap Value) (name : String) (value : Value) (rest : NameMap Value) :
    mergeFields ours ((name, value) :: rest) =
      mergeFields (match NameMap.get? ours name with
        | some v => if v.isNull then NameMap.put name value ours else ours
        | none => NameMap.put name value ours) rest := rfl

theorem get?_mergeFields {theirs : NameMap Value} (h : (theirs.map (·.1)).Nodup) (ours : NameMap Value)
    (name : String) :
    NameMap.get? (mergeFields ours theirs) name = mergeValue (NameMap.get? ours name) (NameMap.get? theirs name) := by
  induction theirs generalizing ours with
  | nil => cases hn : NameMap.get? ours name <;> simp [mergeFields, mergeValue, hn]
  | cons p rest ih =>
    obtain ⟨k, w⟩ := p
    rw [List.map_cons, List.nodup_cons] at h
    rw [mergeFields_cons, ih h.2, NameMap.get?_cons]
    by_cases hk : k = name
    · subst hk
      have hrest : NameMap.get? rest k = none := NameMap.get?_eq_none_iff.mpr h.1
      rw [hrest, if_pos rfl]
      rcases hv : NameMap.get? ours k with - | v
      · simp [mergeValue, NameMap.get?_put]
      · by_cases hnull : v.isNull = true <;> simp [mergeValue, hnull, hv, NameMap.get?_put]
    · have hk' : ¬ name = k := fun e => hk e.symm
      rw [if_neg hk]
      congr 1
      split
      · split
        · rw [NameMap.get?_put, if_neg hk']
        · rfl
      · rw [NameMap.get?_put, if_neg hk']

theorem ordered_mergeFields {ours : NameMap Value} (h : NameMap.Ordered ours) (theirs : NameMap Value) :
    NameMap.Ordered (mergeFields ours theirs) := by
  induction theirs generalizing ours with
  | nil => exact h
  | cons p rest ih =>
    obtain ⟨k, w⟩ := p
    rw [mergeFields_cons]
    apply ih
    split
    · split
      · exact h.put k w
      · exact h
    · exact h.put k w

theorem mergeFields_self {fields : NameMap Value} (h : NameMap.Ordered fields) : mergeFields fields fields = fields := by
  refine NameMap.ordered_ext (ordered_mergeFields h fields) h fun name => ?_
  rw [get?_mergeFields h.nodup]
  rcases NameMap.get? fields name with - | v
  · rfl
  · simp [mergeValue]

theorem mergeRelated_none (theirs : Related) : mergeRelated s (.one none) theirs = theirs := by
  cases theirs <;> rfl

theorem mergeRelated_some (a b : Instance) :
    mergeRelated s (.one (some a)) (.one (some b)) =
      .one (some (if a.key s = b.key s then mergePair s a b else a)) := rfl

/-- What is kept of a relation of two instances: what the one holds that has loaded it, or both merged. -/
def mergeLoaded (s : Schema) : Option Related → Option Related → Option Related
  | some ours, some theirs => some (mergeRelated s ours theirs)
  | some ours, none => some ours
  | none, theirs => theirs

/-- One relation of theirs, merged with ours of its name. -/
def mergeUnder (s : Schema) (ours : NameMap Related) (name : String) (theirs : Related) : Related :=
  match NameMap.get? ours name with
  | some r => mergeRelated s r theirs
  | none => theirs

theorem mergeRelations_cons (ours : NameMap Related) (name : String) (theirs : Related) (rest : NameMap Related) :
    mergeRelations s ours ((name, theirs) :: rest) =
      mergeRelations s (NameMap.put name (mergeUnder s ours name theirs) ours) rest := rfl

theorem get?_mergeRelations {theirs : NameMap Related} (h : (theirs.map (·.1)).Nodup) (ours : NameMap Related)
    (name : String) :
    NameMap.get? (mergeRelations s ours theirs) name =
      mergeLoaded s (NameMap.get? ours name) (NameMap.get? theirs name) := by
  induction theirs generalizing ours with
  | nil => cases hn : NameMap.get? ours name <;> simp [mergeRelations, mergeLoaded, hn]
  | cons p rest ih =>
    obtain ⟨k, t⟩ := p
    rw [List.map_cons, List.nodup_cons] at h
    rw [mergeRelations_cons, ih h.2, NameMap.get?_cons, NameMap.get?_put]
    by_cases hk : k = name
    · subst hk
      have hrest : NameMap.get? rest k = none := NameMap.get?_eq_none_iff.mpr h.1
      rw [hrest, if_pos rfl, if_pos rfl, mergeUnder]
      cases NameMap.get? ours k <;> rfl
    · have hk' : ¬ name = k := fun e => hk e.symm
      rw [if_neg hk, if_neg hk']

theorem ordered_mergeRelations {ours : NameMap Related} (h : NameMap.Ordered ours) (theirs : NameMap Related) :
    NameMap.Ordered (mergeRelations s ours theirs) := by
  induction theirs generalizing ours with
  | nil => exact h
  | cons p rest ih =>
    obtain ⟨k, t⟩ := p
    rw [mergeRelations_cons]
    exact ih (h.put k _)

section
variable {a b : Instance}

theorem mergePair_entity (a b : Instance) : (mergePair s a b).entity = a.entity := by
  cases b
  rfl

theorem mergePair_fields (a b : Instance) : (mergePair s a b).fields = mergeFields a.fields b.fields := by
  cases b
  rfl

theorem mergePair_relations (a b : Instance) :
    (mergePair s a b).relations = mergeRelations s a.relations b.relations := by
  cases b
  rfl

theorem related?_mergePair (h : NameMap.Ordered b.relations) (a : Instance) (name : String) :
    (mergePair s a b).related? name = mergeLoaded s (a.related? name) (b.related? name) := by
  unfold Instance.related?
  rw [mergePair_relations, get?_mergeRelations h.nodup]

/-- Merging instances of one key keeps the key, also when it is null or missing. -/
theorem key_mergePair (hb : NameMap.Ordered b.fields) (h : a.key s = b.key s) : (mergePair s a b).key s = a.key s := by
  unfold Instance.key Instance.pk Instance.get? at *
  rw [mergePair_entity, mergePair_fields, get?_mergeFields hb.nodup]
  have hpk := (Prod.mk.inj h).2
  rw [← (Prod.mk.inj h).1] at hpk
  congr 1
  rcases ha : NameMap.get? a.fields (s.entity a.entity).pk with - | v <;>
    rcases hb : NameMap.get? b.fields (s.entity a.entity).pk with - | w <;>
    simp only [ha, hb, Option.getD_none, Option.getD_some] at hpk
  · rfl
  · simp [mergeValue, hpk]
  · simp [mergeValue]
  · simp [mergeValue, hpk]

theorem mem_related_of_mergeRelated {ours theirs : Related} {c : Instance}
    (h : c ∈ (mergeRelated s ours theirs).instances) :
    c ∈ ours.instances ∨ c ∈ theirs.instances ∨
      ∃ a ∈ ours.instances, ∃ b ∈ theirs.instances, a.key s = b.key s ∧ c = mergePair s a b := by
  rcases ours with (- | a) | left
  · rw [mergeRelated_none] at h
    exact .inr (.inl h)
  · rcases theirs with (- | b) | right
    · exact .inl h
    · rw [mergeRelated_some] at h
      by_cases hk : a.key s = b.key s
      · rw [if_pos hk] at h
        exact .inr (.inr ⟨a, List.mem_singleton_self a, b, List.mem_singleton_self b, hk, List.mem_singleton.mp h⟩)
      · rw [if_neg hk] at h
        exact .inl h
    · exact .inl h
  · rcases theirs with o | right
    · exact .inl h
    · rcases List.mem_append.mp h with hl | hr
      · exact .inl hl
      · exact .inr (.inl hr)

theorem ordered_mergePair (ha : a.Ordered) (hb : b.Ordered) : (mergePair s a b).Ordered := by
  induction b using Instance.related_induction generalizing a with
  | step b ih =>
    have hrel : NameMap.Ordered (mergePair s a b).relations := by
      rw [mergePair_relations]
      exact ordered_mergeRelations ha.relations _
    refine Instance.ordered_iff.mpr ⟨?_, hrel, ?_⟩
    · rw [mergePair_fields]
      exact ordered_mergeFields ha.fields _
    · rintro ⟨name, r⟩ hp c hc
      have hget := hrel.get?_eq_some_iff.mpr hp
      change (mergePair s a b).related? name = some r at hget
      rw [related?_mergePair hb.relations] at hget
      rcases hra : a.related? name with - | ra <;> rcases hrb : b.related? name with - | rb <;>
        rw [hra, hrb] at hget <;> cases hget
      · exact hb.related (NameMap.mem_of_get? hrb) hc
      · exact ha.related (NameMap.mem_of_get? hra) hc
      · have hma := NameMap.mem_of_get? hra
        have hmb := NameMap.mem_of_get? hrb
        rcases mem_related_of_mergeRelated hc with h | h | ⟨x, hx, y, hy, -, rfl⟩
        · exact ha.related hma h
        · exact hb.related hmb h
        · exact ih _ hmb y hy (ha.related hma hx) (hb.related hmb hy)

end

theorem relationsDepth_put (name : String) (r : Related) (m : NameMap Related) :
    relationsDepth (NameMap.put name r m) ≤ max (r.depth + 1) (relationsDepth m) := by
  refine relationsDepth_le_iff.mpr fun p hp => ?_
  rcases NameMap.mem_put hp with rfl | hm
  · exact Nat.le_max_left ..
  · exact Nat.le_trans (relationsDepth_le_iff.mp (Nat.le_refl _) p hm) (Nat.le_max_right ..)

/-- Merging a relation goes no deeper than what is merged, given this for the instances that the relation leads to. -/
theorem depth_mergeUnder {theirs : Related}
    (h : ∀ y ∈ theirs.instances, ∀ x, (mergePair s x y).depth ≤ max x.depth y.depth) (ours : NameMap Related)
    (name : String) : (mergeUnder s ours name theirs).depth + 1 ≤ max (relationsDepth ours) (theirs.depth + 1) := by
  unfold mergeUnder
  rcases hr : NameMap.get? ours name with - | r
  · exact Nat.le_max_right ..
  · have hle : r.depth + 1 ≤ relationsDepth ours :=
      relationsDepth_le_iff.mp (Nat.le_refl _) _ (NameMap.mem_of_get? hr)
    have hours := Related.depth_le_iff.mp (Nat.le_refl r.depth)
    have htheirs := Related.depth_le_iff.mp (Nat.le_refl theirs.depth)
    have hmerged : (mergeRelated s r theirs).depth ≤ max r.depth theirs.depth := by
      refine Related.depth_le_iff.mpr fun c hc => ?_
      rcases mem_related_of_mergeRelated hc with ho | ht | ⟨x, hx, y, hy, -, rfl⟩
      · exact Nat.le_trans (hours c ho) (Nat.le_max_left ..)
      · exact Nat.le_trans (htheirs c ht) (Nat.le_max_right ..)
      · have hxy := h y hy x
        have hxd := hours x hx
        have hyd := htheirs y hy
        omega
    dsimp only
    omega

theorem depth_mergeRelations {theirs : NameMap Related}
    (h : ∀ p ∈ theirs, ∀ y ∈ p.2.instances, ∀ x, (mergePair s x y).depth ≤ max x.depth y.depth)
    (ours : NameMap Related) :
    relationsDepth (mergeRelations s ours theirs) ≤ max (relationsDepth ours) (relationsDepth theirs) := by
  induction theirs generalizing ours with
  | nil => exact Nat.le_max_left ..
  | cons p rest ih =>
    obtain ⟨k, t⟩ := p
    have hmerged := depth_mergeUnder (h _ (List.mem_cons_self ..)) ours k
    have hput := relationsDepth_put k (mergeUnder s ours k t) ours
    have hrest := ih (fun p hp => h p (List.mem_cons_of_mem _ hp)) (NameMap.put k (mergeUnder s ours k t) ours)
    rw [mergeRelations_cons]
    simp only [relationsDepth]
    dsimp only at hmerged
    omega

theorem depth_mergePair (a b : Instance) : (mergePair s a b).depth ≤ max a.depth b.depth := by
  induction b using Instance.related_induction generalizing a with
  | step b ih =>
    rw [Instance.depth_eq, mergePair_relations, Instance.depth_eq a, Instance.depth_eq b]
    exact depth_mergeRelations (fun p hp y hy x => ih p hp y hy x) a.relations

end RelQuery
