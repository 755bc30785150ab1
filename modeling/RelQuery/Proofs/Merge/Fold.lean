import RelQuery.Proofs.Merge.KeyPath

/-!
# Merging a group from the left

Merging two instances is not associative: where a relation leads to one instance, the first of two keys wins, so that
it matters which two meet first. Among instances that agree on their relations to one, at every depth, it is
associative, and the rounds that merge neighbours give what merging from the left gives. The fields of the merge do not
depend on this: each holds the first value that is known.
-/

namespace RelQuery

variable {s : Schema}

/-- Each relation that both instances have loaded is of the same kind in both, and where it leads both to one instance,
it leads to instances of one key that are compatible, too. -/
inductive Compatible (s : Schema) : Instance → Instance → Prop where
  | intro {a b : Instance}
      (agrees : ∀ name r t, a.related? name = some r → b.related? name = some t → (r.kind s).Agrees (t.kind s))
      (children : ∀ name c d, a.related? name = some (.one (some c)) → b.related? name = some (.one (some d)) →
        Compatible s c d) :
      Compatible s a b

namespace Compatible

variable {a b c d : Instance} {name : String}

theorem agrees (h : Compatible s a b) {r t : Related} (hr : a.related? name = some r) (ht : b.related? name = some t) :
    (r.kind s).Agrees (t.kind s) := by
  cases h with
  | intro agrees _ => exact agrees name r t hr ht

theorem child (h : Compatible s a b) (hc : a.related? name = some (.one (some c)))
    (hd : b.related? name = some (.one (some d))) : Compatible s c d := by
  cases h with
  | intro _ children => exact children name c d hc hd

theorem key (h : Compatible s a b) (hc : a.related? name = some (.one (some c)))
    (hd : b.related? name = some (.one (some d))) : c.key s = d.key s :=
  h.agrees hc hd _ rfl _ rfl

end Compatible

theorem RelatedKind.Agrees.symm {k k' : RelatedKind} (h : k.Agrees k') : k'.Agrees k := by
  cases k <;> cases k' <;> first | exact fun a ha b hb => (h b hb a ha).symm | exact h

theorem Compatible.symm {a b : Instance} (h : Compatible s a b) : Compatible s b a := by
  induction h with
  | intro agrees _ ih =>
    exact .intro (fun name r t hr ht => (agrees name t r ht hr).symm) fun name c d hc hd => ih name d c hd hc

/-! ### Associativity -/

theorem mergeValue_known {v : Value} (h : v.isNull = false) (w : Option Value) : mergeValue (some v) w = some v := by
  cases w with
  | none => rfl
  | some w => simp [mergeValue, h]

theorem mergeValue_null {v : Value} (h : v.isNull = true) (w : Value) : mergeValue (some v) (some w) = some w := by
  simp [mergeValue, h]

theorem mergeValue_assoc (u v w : Option Value) :
    mergeValue (mergeValue u v) w = mergeValue u (mergeValue v w) := by
  rcases u with - | u
  · rfl
  · rcases v with - | v
    · rfl
    · cases hu : u.isNull with
      | false => rw [mergeValue_known hu, mergeValue_known hu, mergeValue_known hu]
      | true =>
        have hsome : ∃ z, mergeValue (some v) w = some z := by
          cases w with
          | none => exact ⟨v, rfl⟩
          | some w => exact ⟨_, (apply_ite some _ _ _).symm⟩
        obtain ⟨z, hz⟩ := hsome
        rw [mergeValue_null hu, hz, mergeValue_null hu]

theorem mergeFields_assoc {a b c : NameMap Value} (ha : NameMap.Ordered a) (hb : NameMap.Ordered b)
    (hc : NameMap.Ordered c) : mergeFields (mergeFields a b) c = mergeFields a (mergeFields b c) := by
  have hbc := ordered_mergeFields hb c
  have hleft := ordered_mergeFields (ordered_mergeFields ha b) c
  refine NameMap.ordered_ext hleft (ordered_mergeFields ha _) fun name => ?_
  rw [get?_mergeFields hc.nodup, get?_mergeFields hb.nodup, get?_mergeFields hbc.nodup, get?_mergeFields hc.nodup,
    mergeValue_assoc]

theorem mergeRelated_some_of_key {a b : Instance} (h : a.key s = b.key s) :
    mergeRelated s (.one (some a)) (.one (some b)) = .one (some (mergePair s a b)) := by
  rw [mergeRelated_some, if_pos h]

/-- Relations that agree merge in any bracketing, if the instances do that they lead to. -/
theorem mergeRelated_assoc {r t u : Related} (hrt : (r.kind s).Agrees (t.kind s)) (htu : (t.kind s).Agrees (u.kind s))
    (hone : ∀ x y z, r = .one (some x) → t = .one (some y) → u = .one (some z) →
      (mergePair s x y).key s = x.key s ∧ (mergePair s y z).key s = y.key s ∧
        mergePair s (mergePair s x y) z = mergePair s x (mergePair s y z)) :
    mergeRelated s (mergeRelated s r t) u = mergeRelated s r (mergeRelated s t u) := by
  rcases r with (- | x) | left
  · rw [mergeRelated_none, mergeRelated_none]
  · rcases t with (- | y) | middle
    · rw [mergeRelated_none]
      rfl
    · rcases u with (- | z) | right
      · rw [mergeRelated_some]
        rfl
      · have hxy : x.key s = y.key s := hrt _ rfl _ rfl
        have hyz : y.key s = z.key s := htu _ rfl _ rfl
        obtain ⟨hx, hy, hassoc⟩ := hone x y z rfl rfl rfl
        rw [mergeRelated_some_of_key hxy, mergeRelated_some_of_key hyz,
          mergeRelated_some_of_key (hx.trans (hxy.trans hyz)), mergeRelated_some_of_key (hxy.trans hy.symm), hassoc]
      · exact htu.elim
    · exact hrt.elim
  · rcases t with t | middle
    · exact hrt.elim
    · rcases u with u | right
      · exact htu.elim
      · exact congrArg Related.many (List.append_assoc left middle right)

/-- Merging is associative for instances that are compatible with each other. -/
theorem mergePair_assoc {a b c : Instance} (ha : a.Ordered) (hb : b.Ordered) (hc : c.Ordered)
    (hab : Compatible s a b) (hbc : Compatible s b c) (hac : Compatible s a c) :
    mergePair s (mergePair s a b) c = mergePair s a (mergePair s b c) := by
  induction b using Instance.related_induction generalizing a c with
  | step b ih =>
    have hmab := ordered_mergePair (s := s) ha hb
    have hmbc := ordered_mergePair (s := s) hb hc
    refine Instance.ext_related (ordered_mergePair hmab hc).relations (ordered_mergePair ha hmbc).relations ?_ ?_ ?_
    · rw [mergePair_entity, mergePair_entity, mergePair_entity]
    · rw [mergePair_fields, mergePair_fields, mergePair_fields, mergePair_fields,
        mergeFields_assoc ha.fields hb.fields hc.fields]
    · intro name
      rw [related?_mergePair hc.relations, related?_mergePair hb.relations, related?_mergePair hmbc.relations,
        related?_mergePair hc.relations]
      rcases hr : a.related? name with - | r
      · rfl
      · rcases ht : b.related? name with - | t
        · rfl
        · rcases hu : c.related? name with - | u
          · rfl
          · refine congrArg some (mergeRelated_assoc (hab.agrees hr ht) (hbc.agrees ht hu) ?_)
            rintro x y z rfl rfl rfl
            have hx := ha.related (NameMap.mem_of_get? hr) (List.mem_singleton_self x)
            have hy := hb.related (NameMap.mem_of_get? ht) (List.mem_singleton_self y)
            have hz := hc.related (NameMap.mem_of_get? hu) (List.mem_singleton_self z)
            refine ⟨key_mergePair hy.fields (hab.key hr ht), key_mergePair hz.fields (hbc.key ht hu), ?_⟩
            exact ih _ (NameMap.mem_of_get? ht) y (List.mem_singleton_self y) hx hy hz (hab.child hr ht)
              (hbc.child ht hu) (hac.child hr hu)

/-- Where a merged relation leads to one instance, it is that of one relation, or both are merged. -/
theorem one_of_mergeRelated {r t : Related} {z : Instance} (h : mergeRelated s r t = .one (some z)) :
    r = .one (some z) ∨ t = .one (some z) ∨
      ∃ x y, r = .one (some x) ∧ t = .one (some y) ∧ z = mergePair s x y := by
  rcases r with (- | x) | left
  · rw [mergeRelated_none] at h
    exact .inr (.inl h)
  · rcases t with (- | y) | right
    · exact .inl h
    · rw [mergeRelated_some] at h
      split at h
      · cases h
        exact .inr (.inr ⟨x, y, rfl, rfl, rfl⟩)
      · exact .inl h
    · exact .inl h
  · cases t <;> cases h

/-- What is compatible with two instances is compatible with their merge. -/
theorem compatible_mergePair {a b c : Instance} (ha : a.Ordered) (hb : b.Ordered) (hab : Compatible s a b)
    (hac : Compatible s a c) (hbc : Compatible s b c) : Compatible s (mergePair s a b) c := by
  -- into the children only where both sides hold one: a relation of one side is taken over as it is
  induction b using Instance.related_induction generalizing a c with
  | step b ih =>
    refine .intro (fun name r u hr hu => ?_) fun name z w hz hw => ?_
    · rw [related?_mergePair hb.relations] at hr
      rcases hra : a.related? name with - | ra <;> rcases hrb : b.related? name with - | rb <;>
        rw [hra, hrb] at hr <;> cases hr
      · exact hbc.agrees hrb hu
      · exact hac.agrees hra hu
      · have hord : ∀ y ∈ rb.instances, y.Ordered := fun y hy => hb.related (NameMap.mem_of_get? hrb) hy
        have hkinds : (mergeRelated s ra rb).kind s = ra.kind s ∨ (mergeRelated s ra rb).kind s = rb.kind s :=
          kind_mergeRelated hord
        rcases hkinds with hkind | hkind
        · exact hkind ▸ hac.agrees hra hu
        · exact hkind ▸ hbc.agrees hrb hu
    · rw [related?_mergePair hb.relations] at hz
      rcases hra : a.related? name with - | ra <;> rcases hrb : b.related? name with - | rb <;>
        rw [hra, hrb] at hz
      · cases hz
      · exact hbc.child (hrb.trans hz) hw
      · exact hac.child (hra.trans hz) hw
      · rcases one_of_mergeRelated (Option.some.inj hz) with rfl | rfl | ⟨x, y, rfl, rfl, rfl⟩
        · exact hac.child hra hw
        · exact hbc.child hrb hw
        · have hx := ha.related (NameMap.mem_of_get? hra) (List.mem_singleton_self x)
          have hmem := NameMap.mem_of_get? hrb
          have hy := hb.related hmem (List.mem_singleton_self y)
          exact ih _ hmem y (List.mem_singleton_self y) hx hy (hab.child hra hrb) (hac.child hra hw) (hbc.child hrb hw)

/-! ### From the left -/

/-- Merging on the left of a fold is merging on the left of what it starts with. -/
theorem mergePair_foldl {a b : Instance} {rest : List Instance} (ho : ∀ i ∈ a :: b :: rest, i.Ordered)
    (hc : (a :: b :: rest).Pairwise (Compatible s)) :
    mergePair s a (rest.foldl (mergePair s) b) = rest.foldl (mergePair s) (mergePair s a b) := by
  induction rest generalizing b with
  | nil => rfl
  | cons c rest ih =>
    simp only [List.forall_mem_cons] at ho
    simp only [List.pairwise_cons, List.forall_mem_cons] at hc
    obtain ⟨ha, hb, hc', hrest⟩ := ho
    obtain ⟨⟨hab, hac, harest⟩, ⟨hbc, hbrest⟩, hcrest, hpairwise⟩ := hc
    have hordered : ∀ i ∈ a :: mergePair s b c :: rest, i.Ordered := by
      simp only [List.forall_mem_cons]
      exact ⟨ha, ordered_mergePair hb hc', hrest⟩
    have hcompatible : (a :: mergePair s b c :: rest).Pairwise (Compatible s) := by
      simp only [List.pairwise_cons, List.forall_mem_cons]
      exact ⟨⟨(compatible_mergePair hb hc' hbc hab.symm hac.symm).symm, harest⟩,
        fun i hi => compatible_mergePair hb hc' hbc (hbrest i hi) (hcrest i hi), hpairwise⟩
    rw [List.foldl_cons, List.foldl_cons, ih hordered hcompatible, mergePair_assoc ha hb hc' hab hbc hac]

namespace MergeOf

variable {l : List Instance} {m : Instance}

theorem compatible (h : MergeOf s l m) (ho : ∀ a ∈ l, a.Ordered) (hc : l.Pairwise (Compatible s)) {b : Instance}
    (hb : ∀ a ∈ l, Compatible s a b) : Compatible s m b := by
  induction h generalizing b with
  | one a => exact hb a (List.mem_singleton_self a)
  | pair h₁ h₂ ih₁ ih₂ =>
    rw [List.forall_mem_append] at ho hb
    obtain ⟨hc₁, hc₂, hacross⟩ := List.pairwise_append.mp hc
    have hparts := ih₁ ho.1 hc₁ fun a ha => (ih₂ ho.2 hc₂ fun b hb => (hacross a ha b hb).symm).symm
    exact compatible_mergePair (h₁.ordered ho.1) (h₂.ordered ho.2) hparts (ih₁ ho.1 hc₁ hb.1) (ih₂ ho.2 hc₂ hb.2)

/-- Compatible instances merged in any bracketing are merged from the left. -/
theorem eq_foldl (h : MergeOf s l m) (ho : ∀ a ∈ l, a.Ordered) (hc : l.Pairwise (Compatible s)) :
    ∃ a rest, l = a :: rest ∧ m = rest.foldl (mergePair s) a := by
  induction h with
  | one a => exact ⟨a, [], rfl, rfl⟩
  | pair h₁ h₂ ih₁ ih₂ =>
    rw [List.forall_mem_append] at ho
    obtain ⟨hc₁, hc₂, hacross⟩ := List.pairwise_append.mp hc
    obtain ⟨a, rest, rfl, rfl⟩ := ih₁ ho.1 hc₁
    obtain ⟨b, rest', rfl, rfl⟩ := ih₂ ho.2 hc₂
    refine ⟨a, rest ++ b :: rest', rfl, ?_⟩
    have hordered := h₁.ordered ho.1
    have hcompatible : ∀ c ∈ b :: rest', Compatible s (rest.foldl (mergePair s) a) c := fun c hcmem =>
      h₁.compatible ho.1 hc₁ fun i hi => hacross i hi c hcmem
    rw [mergePair_foldl (List.forall_mem_cons.mpr ⟨hordered, ho.2⟩) (List.pairwise_cons.mpr ⟨hcompatible, hc₂⟩),
      List.foldl_append, List.foldl_cons]

end MergeOf

/-- The first value that is not null; null if all are, and nothing if there is none. -/
def firstKnown? (values : List Value) : Option Value :=
  (values.find? (!·.isNull)).or (if values.isEmpty then none else some .null)

theorem firstKnown?_cons (v : Value) (vs : List Value) :
    firstKnown? (v :: vs) = mergeValue (some v) (firstKnown? vs) := by
  unfold firstKnown?
  cases hv : v.isNull with
  | false => rw [List.find?_cons_of_pos (by simp [hv]), Option.some_or, mergeValue_known hv]
  | true =>
    rw [List.find?_cons_of_neg (by simp [hv]), List.isEmpty_cons, if_neg Bool.false_ne_true]
    cases vs with
    | nil => exact congrArg some (Value.isNull_eq_true.mp hv).symm
    | cons w vs =>
      rw [List.isEmpty_cons, if_neg Bool.false_ne_true]
      cases List.find? (!·.isNull) (w :: vs) with
      | none => exact (mergeValue_null hv .null).symm
      | some z => exact (mergeValue_null hv z).symm

theorem firstKnown?_append (xs ys : List Value) :
    firstKnown? (xs ++ ys) = mergeValue (firstKnown? xs) (firstKnown? ys) := by
  induction xs with
  | nil => rfl
  | cons x xs ih => rw [List.cons_append, firstKnown?_cons, ih, firstKnown?_cons, mergeValue_assoc]

theorem MergeOf.get? {l : List Instance} {m : Instance} (h : MergeOf s l m) (ho : ∀ a ∈ l, a.Ordered) (name : String) :
    m.get? name = firstKnown? (l.filterMap (·.get? name)) := by
  induction h with
  | one a =>
    rw [List.filterMap_cons, List.filterMap_nil]
    cases a.get? name with
    | none => rfl
    | some v => exact (firstKnown?_cons v []).symm
  | @pair l₁ l₂ a b h₁ h₂ ih₁ ih₂ =>
    rw [List.forall_mem_append] at ho
    have hmerged : (mergePair s a b).get? name = mergeValue (a.get? name) (b.get? name) := by
      unfold Instance.get?
      rw [mergePair_fields, get?_mergeFields (h₂.ordered ho.2).fields.nodup]
    rw [hmerged, ih₁ ho.1, ih₂ ho.2, List.filterMap_append, firstKnown?_append]

/-- Merging a group of compatible instances by rounds of neighbours gives what merging from the left gives. Compatible
or not, each field of the merge holds the first value of the group that is not null, null if there are only nulls, and
nothing if no instance holds it. -/
theorem mergeGroup?_eq_foldl (s : Schema) (a : Instance) (rest : List Instance) (ho : ∀ i ∈ a :: rest, i.Ordered) :
    ((a :: rest).Pairwise (Compatible s) → mergeGroup? s (a :: rest) = some (rest.foldl (mergePair s) a)) ∧
      ∃ m, mergeGroup? s (a :: rest) = some m ∧
        ∀ name, m.get? name = firstKnown? ((a :: rest).filterMap (·.get? name)) := by
  obtain ⟨m, hm, hof⟩ := mergeGroup?_mergeOf (s := s) (List.cons_ne_nil a rest)
  refine ⟨fun hc => ?_, m, hm, hof.get? ho⟩
  obtain ⟨b, others, hl, rfl⟩ := hof.eq_foldl ho hc
  obtain ⟨rfl, rfl⟩ := List.cons.inj hl
  exact hm

def pressRow (name : Value) (books : List Instance) : Instance :=
  ⟨⟨2⟩, [("id", .int 5), ("name", name)], [("books", .many books)]⟩

def editionRow (title : Value) (publisher : Option Instance) : Instance :=
  ⟨⟨1⟩, [("id", .int 10), ("title", title)], [("publisher", .one publisher)]⟩

/-- The rows of one edition, first without its publisher, then with what different rows say of it. -/
def editionRows : List Instance :=
  [editionRow .null none, editionRow (.text "Iris") (some (pressRow .null [editionRow .null none])),
    editionRow (.text "Reed") (some (pressRow (.text "Ink") [editionRow (.text "Iris") none]))]

theorem compatible_single {e e' : EntityId} {fields fields' : List (String × Value)} {name : String} {r t : Related}
    (agrees : (r.kind s).Agrees (t.kind s))
    (child : ∀ c d, r = .one (some c) → t = .one (some d) → Compatible s c d) :
    Compatible s ⟨e, fields, [(name, r)]⟩ ⟨e', fields', [(name, t)]⟩ := by
  have single {e : EntityId} {fields : List (String × Value)} {r u : Related} {key : String}
      (h : (⟨e, fields, [(name, r)]⟩ : Instance).related? key = some u) : r = u := by
    rw [Instance.related?, NameMap.get?_cons] at h
    split at h
    · exact Option.some.inj h
    · cases h
  refine .intro (fun key u v hu hv => ?_) fun key c d hc hd => child c d (single hc) (single hd)
  rw [← single hu, ← single hv]
  exact agrees

theorem mergeGroup?_eq_foldl_editionRows :
    (∀ i ∈ editionRows, i.Ordered) ∧ editionRows.Pairwise (Compatible librarySchema) ∧
      ∃ m, mergeGroup? librarySchema editionRows = some m ∧
        m = (editionRows.drop 1).foldl (mergePair librarySchema) (editionRow .null none) ∧
        m.get? "title" = some (.text "Iris") ∧ m.get? "subtitle" = none := by
  have htitle : "id" < "title" := by decide
  have hname : "id" < "name" := by decide
  have hbook (title : Value) {publisher : Option Instance} (h : ∀ p ∈ publisher, p.Ordered) :
      (editionRow title publisher).Ordered :=
    Instance.ordered_mk.mpr ⟨List.pairwise_pair.mpr htitle, List.pairwise_singleton .., by
      simpa [Related.instances] using h⟩
  have hbare (title : Value) : (editionRow title none).Ordered := hbook title (by simp)
  have hpublisher (name title : Value) : (pressRow name [editionRow title none]).Ordered :=
    Instance.ordered_mk.mpr ⟨List.pairwise_pair.mpr hname, List.pairwise_singleton .., by
      simpa [Related.instances] using hbare title⟩
  have hordered : ∀ i ∈ editionRows, i.Ordered := by
    simp only [editionRows, List.forall_mem_cons]
    exact ⟨hbare _, hbook _ (by rintro _ ⟨⟩; exact hpublisher _ _), hbook _ (by rintro _ ⟨⟩; exact hpublisher _ _),
      List.forall_mem_nil _⟩
  have hpublishers (name name' : Value) (books books' : List Instance) :
      Compatible librarySchema (pressRow name books) (pressRow name' books') :=
    compatible_single trivial (fun _ _ hc => by cases hc)
  have hcompatible : editionRows.Pairwise (Compatible librarySchema) := by
    simp only [editionRows, List.pairwise_cons, List.forall_mem_cons]
    refine ⟨⟨?_, ?_, by simp⟩, ⟨?_, by simp⟩, by simp⟩
    · exact compatible_single (fun _ h => by cases h) (fun _ _ hc => by cases hc)
    · exact compatible_single (fun _ h => by cases h) (fun _ _ hc => by cases hc)
    · refine compatible_single ?_ ?_
      · rintro _ ⟨⟩ _ ⟨⟩
        rfl
      · rintro _ _ ⟨⟩ ⟨⟩
        exact hpublishers _ _ _ _
  obtain ⟨hfold, m, hm, hfields⟩ := mergeGroup?_eq_foldl librarySchema _ _ hordered
  refine ⟨hordered, hcompatible, m, hm, Option.some.inj (hm.symm.trans (hfold hcompatible)), ?_, ?_⟩
  · exact (hfields "title").trans (by decide)
  · exact (hfields "subtitle").trans (by decide)

end RelQuery
