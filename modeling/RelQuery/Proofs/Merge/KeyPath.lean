import RelQuery.Proofs.Merge.NormalForm

/-!
# Key paths

A key path says how an instance is reached from a root: by the key of the root and, at each step, a relation and the key
of the instance that it leads to. Where all instances at a key path agree on what their relations are, merging keeps
the set of key paths, whatever the order of the forest, and leaves one instance at each.

All facts below an instance are inductions on the steps of the path, since merging two instances merges instances one
step further, and tidying merges lists one step further.
-/

namespace RelQuery

/-- A step down a tree: a relation, and the key of the instance reached. -/
abbrev KeyStep := String × (EntityId × Value)

/-- The key of a root and the steps down from it. -/
abbrev KeyPath := (EntityId × Value) × List KeyStep

mutual

/-- The instances within an instance, itself first, each with the steps that reach it. -/
def Instance.located (s : Schema) : Instance → List (List KeyStep × Instance)
  | ⟨entity, fields, relations⟩ => ([], ⟨entity, fields, relations⟩) :: relationsLocated s relations
termination_by structural i => i

/-- The instances that relations lead to, with their steps. -/
def relationsLocated (s : Schema) : List (String × Related) → List (List KeyStep × Instance)
  | [] => []
  | (name, related) :: rest => related.located s name ++ relationsLocated s rest
termination_by structural relations => relations

/-- The instances that a relation of some name leads to, with their steps. -/
def Related.located (s : Schema) (name : String) : Related → List (List KeyStep × Instance)
  | .one related => optionalLocated s name related
  | .many related => instancesLocated s name related
termination_by structural r => r

/-- The instances within an instance that may be absent, one step further. -/
def optionalLocated (s : Schema) (name : String) : Option Instance → List (List KeyStep × Instance)
  | none => []
  | some i => (i.located s).map fun p => ((name, i.key s) :: p.1, p.2)
termination_by structural i => i

/-- The instances within some instances, one step further. -/
def instancesLocated (s : Schema) (name : String) : List Instance → List (List KeyStep × Instance)
  | [] => []
  | i :: rest => ((i.located s).map fun p => ((name, i.key s) :: p.1, p.2)) ++ instancesLocated s name rest
termination_by structural l => l

end

/-- The instances of a forest with their key paths. -/
def located (s : Schema) (l : List Instance) : List (KeyPath × Instance) :=
  l.flatMap fun i => (i.located s).map fun p => ((i.key s, p.1), p.2)

/-- The key paths of a forest, one for each instance in it. -/
def keyPaths (s : Schema) (l : List Instance) : List KeyPath :=
  (located s l).map (·.1)

/-- What a relation is: to many instances, or to one, of some key if there is one. -/
inductive RelatedKind where
  | many
  | one (key : Option (EntityId × Value))

def Related.kind (s : Schema) : Related → RelatedKind
  | .many _ => .many
  | .one related => .one (related.map (·.key s))

/-- The same kind, and no two different keys. -/
def RelatedKind.Agrees : RelatedKind → RelatedKind → Prop
  | .many, .many => True
  | .one k, .one k' => ∀ a ∈ k, ∀ b ∈ k', a = b
  | _, _ => False

instance (k k' : RelatedKind) : Decidable (k.Agrees k') :=
  match k, k' with
  | .many, .many => isTrue trivial
  | .one k, .one k' => inferInstanceAs (Decidable (∀ a ∈ k, ∀ b ∈ k', a = b))
  | .many, .one _ => isFalse id
  | .one _, .many => isFalse id

/-- Two instances at one key path agree on what each relation is that both have loaded. -/
def Consistent (s : Schema) (l : List Instance) : Prop :=
  ∀ path i j, (path, i) ∈ located s l → (path, j) ∈ located s l →
    ∀ name r t, i.related? name = some r → j.related? name = some t → (r.kind s).Agrees (t.kind s)

variable {s : Schema}

/-! ### Steps -/

theorem instancesLocated_eq (name : String) (l : List Instance) :
    instancesLocated s name l = l.flatMap fun i => (i.located s).map fun p => ((name, i.key s) :: p.1, p.2) := by
  induction l with
  | nil => rfl
  | cons i rest ih => rw [instancesLocated, ih, List.flatMap_cons]

theorem Related.located_eq (name : String) (r : Related) :
    r.located s name = r.instances.flatMap fun i => (i.located s).map fun p => ((name, i.key s) :: p.1, p.2) := by
  cases r with
  | many l => exact instancesLocated_eq name l
  | one o =>
    cases o with
    | none => rfl
    | some i => simp [Related.located, optionalLocated, Related.instances]

theorem relationsLocated_eq (m : List (String × Related)) :
    relationsLocated s m = m.flatMap fun p => p.2.located s p.1 := by
  induction m with
  | nil => rfl
  | cons p rest ih =>
    obtain ⟨name, r⟩ := p
    rw [relationsLocated, ih, List.flatMap_cons]

theorem Instance.located_eq (i : Instance) :
    i.located s = ([], i) :: i.relations.flatMap fun p => p.2.located s p.1 := by
  rw [← relationsLocated_eq]
  cases i
  rfl

theorem mem_located_nil {i j : Instance} : ([], j) ∈ i.located s ↔ j = i := by
  rw [Instance.located_eq]
  simp [Related.located_eq]

theorem mem_located_cons {i j : Instance} (h : NameMap.Ordered i.relations) {name : String} {k : EntityId × Value}
    {steps : List KeyStep} :
    ((name, k) :: steps, j) ∈ i.located s ↔
      ∃ r, i.related? name = some r ∧ ∃ c ∈ r.instances, c.key s = k ∧ (steps, j) ∈ c.located s := by
  unfold Instance.related?
  rw [Instance.located_eq]
  simp only [List.mem_cons, Prod.mk.injEq, reduceCtorEq, false_and, false_or, List.mem_flatMap, Related.located_eq,
    List.mem_map, List.cons.injEq, h.get?_eq_some_iff]
  constructor
  · rintro ⟨⟨name', r⟩, hp, c, hc, ⟨steps', j'⟩, hj, ⟨⟨rfl, rfl⟩, rfl⟩, rfl⟩
    exact ⟨r, hp, c, hc, rfl, hj⟩
  · rintro ⟨r, hp, c, hc, rfl, hj⟩
    exact ⟨(name, r), hp, c, hc, (steps, j), hj, ⟨⟨rfl, rfl⟩, rfl⟩, rfl⟩

theorem mem_located {l : List Instance} {path : KeyPath} {j : Instance} :
    (path, j) ∈ located s l ↔ ∃ i ∈ l, i.key s = path.1 ∧ (path.2, j) ∈ i.located s := by
  obtain ⟨k, steps⟩ := path
  unfold located
  simp only [List.mem_flatMap, List.mem_map, Prod.mk.injEq]
  constructor
  · rintro ⟨i, hi, ⟨steps', j'⟩, hj, ⟨rfl, rfl⟩, rfl⟩
    exact ⟨i, hi, rfl, hj⟩
  · rintro ⟨i, hi, rfl, hj⟩
    exact ⟨i, hi, (steps, j), hj, ⟨rfl, rfl⟩, rfl⟩

theorem mem_keyPaths {l : List Instance} {path : KeyPath} :
    path ∈ keyPaths s l ↔ ∃ i ∈ l, i.key s = path.1 ∧ ∃ j, (path.2, j) ∈ i.located s := by
  unfold keyPaths
  rw [List.mem_map]
  constructor
  · rintro ⟨⟨path', j⟩, hj, rfl⟩
    obtain ⟨i, hi, hk, hj⟩ := mem_located.mp hj
    exact ⟨i, hi, hk, j, hj⟩
  · rintro ⟨i, hi, hk, j, hj⟩
    exact ⟨(path, j), mem_located.mpr ⟨i, hi, hk, hj⟩, rfl⟩

/-- The steps lead from the instance to one that has the property. -/
def LeadsTo (s : Schema) (i : Instance) (steps : List KeyStep) (P : Instance → Prop) : Prop :=
  ∃ j, (steps, j) ∈ i.located s ∧ P j

/-- The steps lead from the instance to an instance. -/
def Reaches (s : Schema) (i : Instance) (steps : List KeyStep) : Prop :=
  LeadsTo s i steps fun _ => True

/-- The instance has loaded a relation of this name and kind. -/
def LoadedAs (s : Schema) (name : String) (kind : RelatedKind) (i : Instance) : Prop :=
  ∃ r, i.related? name = some r ∧ r.kind s = kind

/-- Where the same steps lead from two instances, the relations loaded on both sides agree. -/
def AgreeBelow (s : Schema) (a b : Instance) : Prop :=
  ∀ steps name kind kind', LeadsTo s a steps (LoadedAs s name kind) → LeadsTo s b steps (LoadedAs s name kind') →
    kind.Agrees kind'

theorem leadsTo_nil {i : Instance} {P : Instance → Prop} : LeadsTo s i [] P ↔ P i := by
  unfold LeadsTo
  simp only [mem_located_nil, exists_eq_left]

theorem leadsTo_cons {i : Instance} (h : i.Ordered) {name : String} {k : EntityId × Value} {steps : List KeyStep}
    {P : Instance → Prop} :
    LeadsTo s i ((name, k) :: steps) P ↔
      ∃ r, i.related? name = some r ∧ ∃ c ∈ r.instances, c.key s = k ∧ LeadsTo s c steps P := by
  unfold LeadsTo
  simp only [mem_located_cons h.relations]
  constructor
  · rintro ⟨j, ⟨r, hr, c, hc, hk, hj⟩, hP⟩
    exact ⟨r, hr, c, hc, hk, j, hj, hP⟩
  · rintro ⟨r, hr, c, hc, hk, j, hj, hP⟩
    exact ⟨j, ⟨r, hr, c, hc, hk, hj⟩, hP⟩

theorem AgreeBelow.kind {a b : Instance} (h : AgreeBelow s a b) {name : String} {r t : Related}
    (hr : a.related? name = some r) (ht : b.related? name = some t) : (r.kind s).Agrees (t.kind s) :=
  h [] name _ _ (leadsTo_nil.mpr ⟨r, hr, rfl⟩) (leadsTo_nil.mpr ⟨t, ht, rfl⟩)

theorem AgreeBelow.related {a b c d : Instance} (h : AgreeBelow s a b) (ha : a.Ordered) (hb : b.Ordered)
    {name : String} {r t : Related} (hr : a.related? name = some r) (ht : b.related? name = some t)
    (hc : c ∈ r.instances) (hd : d ∈ t.instances) (hk : c.key s = d.key s) : AgreeBelow s c d := by
  intro steps other kind kind' hckind hdkind
  exact h ((name, d.key s) :: steps) other kind kind' ((leadsTo_cons ha).mpr ⟨r, hr, c, hc, hk, hckind⟩)
    ((leadsTo_cons hb).mpr ⟨t, ht, d, hd, rfl, hdkind⟩)

theorem Consistent.agreeBelow {l : List Instance} (h : Consistent s l) {a b : Instance} (ha : a ∈ l) (hb : b ∈ l)
    (hk : a.key s = b.key s) : AgreeBelow s a b := by
  rintro steps name kind kind' ⟨j, hj, r, hr, rfl⟩ ⟨j', hj', t, ht, rfl⟩
  exact h (b.key s, steps) j j' (mem_located.mpr ⟨a, ha, hk, hj⟩) (mem_located.mpr ⟨b, hb, rfl, hj'⟩) name r t hr ht

theorem kind_mergeRelated {ours theirs : Related} (h : ∀ b ∈ theirs.instances, b.Ordered) :
    (mergeRelated s ours theirs).kind s = ours.kind s ∨ (mergeRelated s ours theirs).kind s = theirs.kind s := by
  rcases ours with (- | a) | left
  · rw [mergeRelated_none]
    exact .inr rfl
  · rcases theirs with (- | b) | right
    · exact .inl rfl
    · refine .inl ?_
      rw [mergeRelated_some]
      split
      · rename_i hk
        have hb := h b (List.mem_singleton_self b)
        simp only [Related.kind, Option.map_some, key_mergePair hb.fields hk]
      · rfl
    · exact .inl rfl
  · rcases theirs with o | right
    · exact .inl rfl
    · exact .inl rfl

/-- Where the relations agree, what ours leads to stays, possibly merged. -/
theorem mem_mergeRelated_left {ours theirs : Related} (h : (ours.kind s).Agrees (theirs.kind s)) {c : Instance}
    (hc : c ∈ ours.instances) :
    c ∈ (mergeRelated s ours theirs).instances ∨
      ∃ d ∈ theirs.instances, c.key s = d.key s ∧ mergePair s c d ∈ (mergeRelated s ours theirs).instances := by
  rcases ours with (- | a) | left
  · cases hc
  · cases List.mem_singleton.mp hc
    rcases theirs with (- | b) | right
    · exact .inl hc
    · have hk : c.key s = b.key s := h _ rfl _ rfl
      refine .inr ⟨b, List.mem_singleton_self b, hk, ?_⟩
      rw [mergeRelated_some, if_pos hk]
      exact List.mem_singleton_self _
    · exact h.elim
  · rcases theirs with o | right
    · exact .inl hc
    · exact .inl (List.mem_append_left _ hc)

/-- Where the relations agree, what theirs leads to is there, possibly merged. -/
theorem mem_mergeRelated_right {ours theirs : Related} (h : (ours.kind s).Agrees (theirs.kind s)) {d : Instance}
    (hd : d ∈ theirs.instances) :
    d ∈ (mergeRelated s ours theirs).instances ∨
      ∃ c ∈ ours.instances, c.key s = d.key s ∧ mergePair s c d ∈ (mergeRelated s ours theirs).instances := by
  rcases ours with (- | a) | left
  · rw [mergeRelated_none]
    exact .inl hd
  · rcases theirs with (- | b) | right
    · cases hd
    · cases List.mem_singleton.mp hd
      have hk : a.key s = d.key s := h _ rfl _ rfl
      refine .inr ⟨a, List.mem_singleton_self a, hk, ?_⟩
      rw [mergeRelated_some, if_pos hk]
      exact List.mem_singleton_self _
    · exact h.elim
  · rcases theirs with o | right
    · exact h.elim
    · exact .inl (List.mem_append_right _ hd)

/-! ### The merge of two instances -/

theorem loadedAs_of_mergePair {a b : Instance} (hb : b.Ordered) {name : String} {kind : RelatedKind}
    (h : LoadedAs s name kind (mergePair s a b)) : LoadedAs s name kind a ∨ LoadedAs s name kind b := by
  obtain ⟨r, hr, rfl⟩ := h
  rw [related?_mergePair hb.relations] at hr
  rcases hra : a.related? name with - | ra <;> rcases hrb : b.related? name with - | rb <;>
    rw [hra, hrb] at hr <;> cases hr
  · exact .inr ⟨r, hrb, rfl⟩
  · exact .inl ⟨r, hra, rfl⟩
  · have hord : ∀ y ∈ rb.instances, y.Ordered := fun y hy => hb.related (NameMap.mem_of_get? hrb) hy
    exact (kind_mergeRelated hord).imp (fun hk => ⟨ra, hra, hk.symm⟩) fun hk => ⟨rb, hrb, hk.symm⟩

/-- Steps that lead somewhere from a merge lead there from one of the merged instances. -/
theorem leadsTo_of_mergePair {P : Instance → Prop}
    (hP : ∀ a b : Instance, b.Ordered → P (mergePair s a b) → P a ∨ P b) {a b : Instance} (ha : a.Ordered)
    (hb : b.Ordered) {steps : List KeyStep} (h : LeadsTo s (mergePair s a b) steps P) :
    LeadsTo s a steps P ∨ LeadsTo s b steps P := by
  induction steps generalizing a b with
  | nil => exact (hP a b hb (leadsTo_nil.mp h)).imp leadsTo_nil.mpr leadsTo_nil.mpr
  | cons step steps ih =>
    obtain ⟨name, k⟩ := step
    rw [leadsTo_cons (ordered_mergePair ha hb)] at h
    rw [leadsTo_cons ha, leadsTo_cons hb]
    obtain ⟨r, hr, c, hc, rfl, hlead⟩ := h
    rw [related?_mergePair hb.relations] at hr
    rcases hra : a.related? name with - | ra <;> rcases hrb : b.related? name with - | rb <;>
      rw [hra, hrb] at hr <;> cases hr
    · exact .inr ⟨r, rfl, c, hc, rfl, hlead⟩
    · exact .inl ⟨r, rfl, c, hc, rfl, hlead⟩
    · rcases mem_related_of_mergeRelated hc with hc | hc | ⟨x, hx, y, hy, hk, rfl⟩
      · exact .inl ⟨ra, rfl, c, hc, rfl, hlead⟩
      · exact .inr ⟨rb, rfl, c, hc, rfl, hlead⟩
      · have hxo : x.Ordered := ha.related (NameMap.mem_of_get? hra) hx
        have hyo : y.Ordered := hb.related (NameMap.mem_of_get? hrb) hy
        have hkey := key_mergePair hyo.fields hk
        rcases ih hxo hyo hlead with h | h
        · exact .inl ⟨ra, rfl, x, hx, hkey.symm, h⟩
        · exact .inr ⟨rb, rfl, y, hy, (hkey.trans hk).symm, h⟩

/-- Where two instances agree, steps that lead somewhere from one of them lead somewhere from their merge. -/
theorem reaches_mergePair {a b : Instance} (ha : a.Ordered) (hb : b.Ordered) (hab : AgreeBelow s a b)
    {steps : List KeyStep} (h : Reaches s a steps ∨ Reaches s b steps) : Reaches s (mergePair s a b) steps := by
  induction steps generalizing a b with
  | nil => exact leadsTo_nil.mpr trivial
  | cons step steps ih =>
    obtain ⟨name, k⟩ := step
    unfold Reaches at *
    rw [leadsTo_cons ha, leadsTo_cons hb] at h
    rw [leadsTo_cons (ordered_mergePair ha hb), related?_mergePair hb.relations]
    rcases h with ⟨r, hr, c, hc, rfl, hlead⟩ | ⟨t, ht, d, hd, rfl, hlead⟩
    · rcases ht : b.related? name with - | t
      · rw [hr]
        exact ⟨r, rfl, c, hc, rfl, hlead⟩
      · rw [hr]
        refine ⟨mergeRelated s r t, rfl, ?_⟩
        rcases mem_mergeRelated_left (hab.kind hr ht) hc with hmem | ⟨d, hd, hk, hmem⟩
        · exact ⟨c, hmem, rfl, hlead⟩
        · have hco : c.Ordered := ha.related (NameMap.mem_of_get? hr) hc
          have hdo : d.Ordered := hb.related (NameMap.mem_of_get? ht) hd
          exact ⟨_, hmem, key_mergePair hdo.fields hk, ih hco hdo (hab.related ha hb hr ht hc hd hk) (.inl hlead)⟩
    · rcases hr : a.related? name with - | r
      · rw [ht]
        exact ⟨t, rfl, d, hd, rfl, hlead⟩
      · rw [ht]
        refine ⟨mergeRelated s r t, rfl, ?_⟩
        rcases mem_mergeRelated_right (hab.kind hr ht) hd with hmem | ⟨c, hc, hk, hmem⟩
        · exact ⟨d, hmem, rfl, hlead⟩
        · have hco : c.Ordered := ha.related (NameMap.mem_of_get? hr) hc
          have hdo : d.Ordered := hb.related (NameMap.mem_of_get? ht) hd
          exact ⟨_, hmem, (key_mergePair hdo.fields hk).trans hk,
            ih hco hdo (hab.related ha hb hr ht hc hd hk) (.inr hlead)⟩

namespace MergeOf

variable {l : List Instance} {m : Instance}

theorem leadsTo {P : Instance → Prop} (hP : ∀ a b : Instance, b.Ordered → P (mergePair s a b) → P a ∨ P b)
    (hm : MergeOf s l m) (ho : ∀ a ∈ l, a.Ordered) {steps : List KeyStep} (h : LeadsTo s m steps P) :
    ∃ a ∈ l, LeadsTo s a steps P := by
  induction hm with
  | one a => exact ⟨a, List.mem_singleton_self a, h⟩
  | pair ha hb iha ihb =>
    have hol := fun a ha => ho a (List.mem_append_left _ ha)
    have hor := fun b hb => ho b (List.mem_append_right _ hb)
    rcases leadsTo_of_mergePair hP (ha.ordered hol) (hb.ordered hor) h with h | h
    · obtain ⟨c, hc, hlead⟩ := iha hol h
      exact ⟨c, List.mem_append_left _ hc, hlead⟩
    · obtain ⟨c, hc, hlead⟩ := ihb hor h
      exact ⟨c, List.mem_append_right _ hc, hlead⟩

theorem agreeBelow {l' : List Instance} {m' : Instance} (hm : MergeOf s l m) (hm' : MergeOf s l' m')
    (ho : ∀ a ∈ l, a.Ordered) (ho' : ∀ a ∈ l', a.Ordered) (h : ∀ a ∈ l, ∀ b ∈ l', AgreeBelow s a b) :
    AgreeBelow s m m' := by
  intro steps name kind kind' hkind hkind'
  obtain ⟨a, ha, hlead⟩ := hm.leadsTo (fun _ _ hb => loadedAs_of_mergePair hb) ho hkind
  obtain ⟨b, hb, hlead'⟩ := hm'.leadsTo (fun _ _ hb => loadedAs_of_mergePair hb) ho' hkind'
  exact h a ha b hb steps name kind kind' hlead hlead'

theorem reaches_iff (hm : MergeOf s l m) (ho : ∀ a ∈ l, a.Ordered) (h : ∀ a ∈ l, ∀ b ∈ l, AgreeBelow s a b)
    {steps : List KeyStep} : Reaches s m steps ↔ ∃ a ∈ l, Reaches s a steps := by
  refine ⟨hm.leadsTo (fun _ _ _ _ => .inl trivial) ho, ?_⟩
  induction hm with
  | one a =>
    rintro ⟨c, hc, hreach⟩
    rwa [← List.mem_singleton.mp hc]
  | pair ha hb iha ihb =>
    rintro ⟨c, hc, hreach⟩
    have hol := fun a ha => ho a (List.mem_append_left _ ha)
    have hor := fun b hb => ho b (List.mem_append_right _ hb)
    have hagree := ha.agreeBelow hb hol hor fun a ha b hb =>
      h a (List.mem_append_left _ ha) b (List.mem_append_right _ hb)
    refine reaches_mergePair (ha.ordered hol) (hb.ordered hor) hagree ?_
    refine (List.mem_append.mp hc).imp (fun hc => iha hol ?_ ⟨c, hc, hreach⟩) fun hc => ihb hor ?_ ⟨c, hc, hreach⟩
    · exact fun a ha b hb => h a (List.mem_append_left _ ha) b (List.mem_append_left _ hb)
    · exact fun a ha b hb => h a (List.mem_append_right _ ha) b (List.mem_append_right _ hb)

end MergeOf

/-! ### Merged forests -/

/-- The merge of the group of a key is tidied to an instance of this key, from which the steps reach what they reach
from the group. -/
theorem reaches_tidy_group {steps : List KeyStep}
    (ih : ∀ i : Instance, i.Ordered → AgreeBelow s i i → (Reaches s (i.tidy s) steps ↔ Reaches s i steps))
    {l : List Instance} (ho : ∀ i ∈ l, i.Ordered)
    (hl : ∀ i ∈ l, ∀ j ∈ l, i.key s = j.key s → AgreeBelow s i j) {i m : Instance}
    (hm : MergeOf s (l.filter fun j => j.key s = i.key s) m) :
    (m.tidy s).key s = i.key s ∧ (Reaches s (m.tidy s) steps ↔ ∃ a ∈ l, a.key s = i.key s ∧ Reaches s a steps) := by
  have hog := fun a ha => ho a (key_of_mem_group (s := s) (i := i) (a := a) ha).1
  have hag : ∀ a ∈ l.filter (fun j => j.key s = i.key s), ∀ b ∈ l.filter (fun j => j.key s = i.key s),
      AgreeBelow s a b := by
    intro a ha b hb
    obtain ⟨ha, hka⟩ := key_of_mem_group ha
    obtain ⟨hb, hkb⟩ := key_of_mem_group hb
    exact hl a ha b hb (hka.trans hkb.symm)
  refine ⟨?_, ?_⟩
  · rw [key_tidy]
    exact hm.key hog fun a ha => (key_of_mem_group ha).2
  · rw [ih m (hm.ordered hog) (hm.agreeBelow hm hog hog hag), hm.reaches_iff hog hag]
    simp only [List.mem_filter, decide_eq_true_eq, and_assoc]

/-- Merging a forest keeps what is reached from its keys, given that tidying keeps what the same steps reach. -/
theorem exists_reaches_merge {steps : List KeyStep}
    (ih : ∀ i : Instance, i.Ordered → AgreeBelow s i i → (Reaches s (i.tidy s) steps ↔ Reaches s i steps))
    {l : List Instance} (ho : ∀ i ∈ l, i.Ordered)
    (hl : ∀ i ∈ l, ∀ j ∈ l, i.key s = j.key s → AgreeBelow s i j) (k : EntityId × Value) :
    (∃ c ∈ merge s l, c.key s = k ∧ Reaches s c steps) ↔ ∃ c ∈ l, c.key s = k ∧ Reaches s c steps := by
  rw [merge_eq]
  simp only [mem_mergeThen]
  constructor
  · rintro ⟨c, ⟨i, hi, m, hm, rfl⟩, rfl, hreach⟩
    obtain ⟨m', hm', hof⟩ := exists_mergeGroup? (s := s) hi
    cases hm.symm.trans hm'
    obtain ⟨hk, hiff⟩ := reaches_tidy_group ih ho hl hof
    rw [hk]
    exact hiff.mp hreach
  · rintro ⟨c, hc, rfl, hreach⟩
    obtain ⟨m, hm, hof⟩ := exists_mergeGroup? (s := s) hc
    obtain ⟨hk, hiff⟩ := reaches_tidy_group ih ho hl hof
    exact ⟨m.tidy s, ⟨c, hc, m, hm, rfl⟩, hk, hiff.mpr ⟨c, hc, rfl, hreach⟩⟩

theorem reaches_tidy {steps : List KeyStep} (i : Instance) (ho : i.Ordered) (h : AgreeBelow s i i) :
    Reaches s (i.tidy s) steps ↔ Reaches s i steps := by
  induction steps generalizing i with
  | nil => exact iff_of_true (leadsTo_nil.mpr trivial) (leadsTo_nil.mpr trivial)
  | cons step steps ih =>
    obtain ⟨name, k⟩ := step
    have hchild : ∀ r, i.related? name = some r →
        ((∃ c ∈ (r.tidy s).instances, c.key s = k ∧ Reaches s c steps) ↔
          ∃ c ∈ r.instances, c.key s = k ∧ Reaches s c steps) := by
      intro r hr
      have hord : ∀ c ∈ r.instances, c.Ordered := fun c hc => ho.related (NameMap.mem_of_get? hr) hc
      have hagree : ∀ c ∈ r.instances, ∀ d ∈ r.instances, c.key s = d.key s → AgreeBelow s c d :=
        fun c hc d hd hk => h.related ho ho hr hr hc hd hk
      cases r with
      | one o =>
        cases o with
        | none => exact Iff.rfl
        | some c =>
          have hc : c ∈ (Related.one (some c)).instances := List.mem_singleton_self c
          have hiff := ih c (hord c hc) (hagree c hc c hc rfl)
          simp only [Related.tidy, Related.instances, Option.map_some, Option.toList_some, List.mem_singleton,
            exists_eq_left, key_tidy, hiff]
      | many l => exact exists_reaches_merge (fun i ho h => ih i ho h) hord hagree k
    unfold Reaches at *
    rw [leadsTo_cons (ordered_tidy ho), leadsTo_cons ho, related?_tidy]
    constructor
    · rintro ⟨t, ht, hreach⟩
      obtain ⟨r, hr, rfl⟩ := Option.map_eq_some_iff.mp ht
      exact ⟨r, hr, (hchild r hr).mp hreach⟩
    · rintro ⟨r, hr, hreach⟩
      exact ⟨r.tidy s, by rw [hr]; rfl, (hchild r hr).mpr hreach⟩

theorem nodup_stepsFrom {α : Type} {l : List Instance} (h : (l.map (·.key s)).Nodup)
    (hl : ∀ i ∈ l, ((i.located s).map (·.1)).Nodup) {f : EntityId × Value → List KeyStep → α}
    (hf : ∀ k k' steps steps', f k steps = f k' steps' → k = k' ∧ steps = steps') :
    (l.flatMap fun i => (i.located s).map fun p => f (i.key s) p.1).Nodup := by
  refine List.nodup_flatMap.mpr ⟨fun i hi => ?_, ?_⟩
  · have hinj := (hl i hi).map fun _ _ he => (hf (i.key s) (i.key s) _ _ he).2
    rwa [List.map_map] at hinj
  · refine (List.pairwise_map.mp h).imp fun hne => ?_
    refine List.disjoint_left.mpr fun x hx hx' => ?_
    obtain ⟨p, -, rfl⟩ := List.mem_map.mp hx
    obtain ⟨q, -, he⟩ := List.mem_map.mp hx'
    exact hne (hf _ _ _ _ he).1.symm

theorem Instance.Merged.nodup_key {i : Instance} (h : i.Merged s) {p : String × Related} (hp : p ∈ i.relations) :
    (p.2.instances.map (·.key s)).Nodup := by
  obtain ⟨name, r⟩ := p
  cases r with
  | one o => cases o <;> simp [Related.instances]
  | many l => exact (Instance.merged_iff.mp h).1 name l hp

theorem nodup_steps {i : Instance} (ho : i.Ordered) (h : i.Merged s) : ((i.located s).map (·.1)).Nodup := by
  induction i using Instance.related_induction with
  | step i ih =>
    have hname : ∀ p ∈ i.relations, ∀ x ∈ (p.2.located s p.1).map (·.1), ∃ k steps, x = (p.1, k) :: steps := by
      intro p _ x hx
      rw [Related.located_eq] at hx
      simp only [List.mem_map, List.mem_flatMap] at hx
      obtain ⟨_, ⟨c, -, q, -, rfl⟩, rfl⟩ := hx
      exact ⟨c.key s, q.1, rfl⟩
    rw [Instance.located_eq, List.map_cons, List.map_flatMap, List.nodup_cons]
    refine ⟨?_, List.nodup_flatMap.mpr ⟨fun p hp => ?_, ?_⟩⟩
    · intro hnil
      obtain ⟨p, hp, hx⟩ := List.mem_flatMap.mp hnil
      obtain ⟨k, steps, he⟩ := hname p hp _ hx
      cases he
    · rw [Related.located_eq, List.map_flatMap]
      simp only [List.map_map, Function.comp_def]
      refine nodup_stepsFrom (f := fun k steps => (p.1, k) :: steps) (h.nodup_key hp) (fun c hc => ?_) ?_
      · exact ih p hp c hc (ho.related hp hc) ((Instance.merged_iff.mp h).2 p hp c hc)
      · intro k k' steps steps' he
        cases he
        exact ⟨rfl, rfl⟩
    · refine (List.pairwise_map.mp ho.relations.nodup).imp_of_mem fun {p q} hp hq hne => ?_
      refine List.disjoint_left.mpr fun x hx hx' => ?_
      obtain ⟨k, steps, rfl⟩ := hname p hp x hx
      obtain ⟨k', steps', he⟩ := hname q hq _ hx'
      exact hne (Prod.mk.inj (List.cons.inj he).1).1

theorem nodup_keyPaths_merge {l : List Instance} (h : ∀ i ∈ l, i.Ordered) : (keyPaths s (merge s l)).Nodup := by
  have hsteps : ∀ i ∈ merge s l, ((i.located s).map (·.1)).Nodup := by
    intro i hi
    obtain ⟨m, hm, -, rfl⟩ := exists_tidy_of_mem_merge h hi
    exact nodup_steps (ordered_tidy hm) (merged_tidy hm)
  unfold keyPaths located
  rw [List.map_flatMap]
  simp only [List.map_map, Function.comp_def]
  refine nodup_stepsFrom (f := fun k steps => (k, steps)) (nodup_key_merge h) hsteps ?_
  intro k k' steps steps' he
  cases he
  exact ⟨rfl, rfl⟩

theorem mem_keyPaths_merge {l : List Instance} (ho : ∀ i ∈ l, i.Ordered) (hl : Consistent s l) (path : KeyPath) :
    path ∈ keyPaths s (merge s l) ↔ path ∈ keyPaths s l := by
  have hmerge : (∃ c ∈ merge s l, c.key s = path.1 ∧ Reaches s c path.2) ↔
      ∃ c ∈ l, c.key s = path.1 ∧ Reaches s c path.2 :=
    exists_reaches_merge reaches_tidy ho (fun i hi j hj hk => hl.agreeBelow hi hj hk) path.1
  unfold Reaches LeadsTo at hmerge
  simp only [and_true] at hmerge
  rw [mem_keyPaths, mem_keyPaths, hmerge]

theorem Consistent.perm {l m : List Instance} (h : Consistent s l) (hm : m.Perm l) : Consistent s m := by
  have hsub : ∀ path i, (path, i) ∈ located s m → (path, i) ∈ located s l := by
    intro path i hi
    obtain ⟨a, ha, hrest⟩ := mem_located.mp hi
    exact mem_located.mpr ⟨a, hm.mem_iff.mp ha, hrest⟩
  intro path i j hi hj
  exact h path i j (hsub path i hi) (hsub path j hj)

theorem keyPaths_perm {l m : List Instance} (hm : m.Perm l) (path : KeyPath) :
    path ∈ keyPaths s m ↔ path ∈ keyPaths s l := by
  simp only [mem_keyPaths, hm.mem_iff]

/-- A forest whose instances agree where they share a key path keeps its key paths when it is merged, each once, in
whatever order its roots come. -/
theorem keyPaths_merge (s : Schema) (l : List Instance) (ho : ∀ i ∈ l, i.Ordered) (hl : Consistent s l) :
    (∀ path, path ∈ keyPaths s (merge s l) ↔ path ∈ keyPaths s l) ∧
      ∀ m : List Instance, m.Perm l →
        (∀ path, path ∈ keyPaths s (merge s m) ↔ path ∈ keyPaths s (merge s l)) ∧ (keyPaths s (merge s m)).Nodup := by
  refine ⟨mem_keyPaths_merge ho hl, fun m hm => ?_⟩
  have hom : ∀ i ∈ m, i.Ordered := fun i hi => ho i (hm.mem_iff.mp hi)
  refine ⟨fun path => ?_, nodup_keyPaths_merge hom⟩
  rw [mem_keyPaths_merge hom (hl.perm hm), mem_keyPaths_merge ho hl, keyPaths_perm hm]

theorem consistent_of_forall_mem {l : List Instance}
    (h : ∀ p ∈ located s l, ∀ q ∈ located s l, p.1 = q.1 →
      ∀ a ∈ p.2.relations, ∀ b ∈ q.2.relations, a.1 = b.1 → (a.2.kind s).Agrees (b.2.kind s)) : Consistent s l := by
  intro path i j hi hj name r t hr ht
  exact h (path, i) hi (path, j) hj rfl (name, r) (NameMap.mem_of_get? hr) (name, t) (NameMap.mem_of_get? ht) rfl

theorem keyPaths_merge_libraryRows :
    (∀ i ∈ libraryRows, i.Ordered) ∧ Consistent librarySchema libraryRows ∧
      (∀ path, path ∈ keyPaths librarySchema (merge librarySchema libraryRows) ↔
        path ∈ keyPaths librarySchema libraryRows) ∧
      ∀ m : List Instance, m.Perm libraryRows →
        (∀ path, path ∈ keyPaths librarySchema (merge librarySchema m) ↔
          path ∈ keyPaths librarySchema (merge librarySchema libraryRows)) ∧
        (keyPaths librarySchema (merge librarySchema m)).Nodup := by
  have ho : ∀ i ∈ libraryRows, i.Ordered := by
    simp [libraryRows, ordered_authorRow]
  have hl : Consistent librarySchema libraryRows := consistent_of_forall_mem (by decide)
  exact ⟨ho, hl, keyPaths_merge librarySchema libraryRows ho hl⟩

end RelQuery
