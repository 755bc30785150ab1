import RelQuery.Proofs.Schema.Build
import RelQuery.Proofs.Schema.Resolve

/-!
# Relations of built schemas

A built schema finds every relation by its owner and name, no relation goes by the name of a column of its owner, and
every relation has a mirror that leads back along the same link. Declarations add relations in pairs, so the invariant
is kept by adding a pair.
-/

namespace RelQuery

variable {s s' : Schema}

/-- The same link as seen from the other side. -/
def Link.mirror : Link → Link
  | .foreignKey key => .reverseForeignKey key
  | .reverseForeignKey key => .foreignKey key
  | .manyToMany through ownerKey targetKey => .manyToMany through targetKey ownerKey

/-- A relation that leads back along the link of another. -/
structure Relation.IsMirrorOf (m r : Relation) : Prop where
  owner : m.owner = r.target
  target : m.target = r.owner
  link : m.link = r.link.mirror

structure Schema.Linked (s : Schema) : Prop where
  found : ∀ n < s.relations.length, s.findRelation? (s.relation ⟨n⟩).owner (s.relation ⟨n⟩).name = some ⟨n⟩
  fields : ∀ r ∈ s.relations, (s.entity r.owner).hasField r.name = false
  mirrors : ∀ n < s.relations.length, (s.relation ⟨n⟩).mirror.index < s.relations.length ∧
    (s.relation (s.relation ⟨n⟩).mirror).IsMirrorOf (s.relation ⟨n⟩)

theorem exists_relation_of_mem {r : Relation} (h : r ∈ s.relations) :
    ∃ n, n < s.relations.length ∧ s.relation ⟨n⟩ = r := by
  obtain ⟨n, hn, rfl⟩ := List.mem_iff_getElem.mp h
  exact ⟨n, hn, by rw [Schema.relation, List.getElem?_eq_getElem hn, Option.getD_some]⟩

theorem Schema.Linked.eq_of_name (h : s.Linked) {r r' : Relation} (hr : r ∈ s.relations) (hr' : r' ∈ s.relations)
    (howner : r.owner = r'.owner) (hname : r.name = r'.name) : r = r' := by
  obtain ⟨n, hn, rfl⟩ := exists_relation_of_mem hr
  obtain ⟨n', hn', rfl⟩ := exists_relation_of_mem hr'
  have hfound := h.found n hn
  rw [howner, hname, h.found n' hn'] at hfound
  rw [Option.some.inj hfound]

theorem Schema.Linked.findRelation? (h : s.Linked) {r : Relation} (hr : r ∈ s.relations) :
    ∃ id, s.findRelation? r.owner r.name = some id ∧ s.relation id = r := by
  obtain ⟨n, hn, rfl⟩ := exists_relation_of_mem hr
  exact ⟨⟨n⟩, h.found n hn, rfl⟩

/-- A relation and a field of one entity are named differently. -/
theorem Schema.Linked.findRelation?_field (hlinked : s.Linked) {entity : EntityId} {field : String}
    (hfield : (s.entity entity).hasField field = true) : s.findRelation? entity field = none := by
  rcases hfind : s.findRelation? entity field with - | id
  · rfl
  · obtain ⟨hmem, howner, hname⟩ := relation_of_findRelation? hfind
    have hclash := hlinked.fields _ hmem
    rw [howner, hname, hfield] at hclash
    cases hclash

theorem Schema.Linked.find_mirror (h : s.Linked) {r : Relation} (hr : r ∈ s.relations) :
    s.findRelation? r.target (s.mirrorName r) = some r.mirror ∧ (s.relation r.mirror).IsMirrorOf r ∧
      s.relation r.mirror ∈ s.relations := by
  obtain ⟨n, hn, rfl⟩ := exists_relation_of_mem hr
  obtain ⟨hlt, hmirror⟩ := h.mirrors n hn
  have hfound := h.found _ hlt
  rw [hmirror.owner] at hfound
  refine ⟨hfound, hmirror, ?_⟩
  rw [Schema.relation, List.getElem?_eq_getElem hlt, Option.getD_some]
  exact List.getElem_mem hlt

theorem isManyToMany_mirror {m r : Relation} (h : m.IsMirrorOf r) : m.isManyToMany = r.isManyToMany := by
  unfold Relation.isManyToMany
  rw [h.link]
  cases r.link <;> rfl

theorem link_of_isManyToMany {r : Relation} (h : r.isManyToMany = true) :
    ∃ through ownerKey targetKey, r.link = .manyToMany through ownerKey targetKey := by
  unfold Relation.isManyToMany at h
  split at h
  · exact ⟨_, _, _, ‹_›⟩
  · cases h

theorem isForeignKey_of_manyToMany {r : Relation} (h : r.isManyToMany = true) : r.isForeignKey = false := by
  obtain ⟨through, ownerKey, targetKey, hlink⟩ := link_of_isManyToMany h
  rw [Relation.isForeignKey, hlink]

theorem relation_append_of_lt {more : List Relation} (h : s'.relations = s.relations ++ more) {n : Nat}
    (hn : n < s.relations.length) : s'.relation ⟨n⟩ = s.relation ⟨n⟩ := by
  rw [Schema.relation, Schema.relation, h, List.getElem?_append_left hn]

theorem findRelation?_append {more : List Relation} (h : s'.relations = s.relations ++ more) (e : EntityId)
    (name : String) :
    s'.findRelation? e name = (s.findRelation? e name).or
      ((more.findIdx? fun r => r.owner == e && r.name == name).map fun n => ⟨n + s.relations.length⟩) := by
  unfold Schema.findRelation?
  rw [h, List.findIdx?_append]
  generalize (s.relations.findIdx? fun r => r.owner == e && r.name == name) = first
  cases first with
  | none =>
    rw [Option.none_or, Option.map_map]
    rfl
  | some n => rfl

theorem addRelation_eq_ok {r : Relation} (h : s.addRelation r = .ok s') :
    s' = { s with relations := s.relations ++ [r] } ∧ s.findRelation? r.owner r.name = none ∧
      (s.entity r.owner).hasField r.name = false := by
  unfold Schema.addRelation at h
  dsimp only at h
  split at h
  · cases h
  · rename_i hnew
    cases h
    rw [Bool.or_eq_true, not_or, Bool.not_eq_true, Option.isSome_eq_false_iff, Option.isNone_iff_eq_none,
      Bool.not_eq_true] at hnew
    exact ⟨rfl, hnew.1, hnew.2⟩

/-- The part of the invariant that one relation more keeps. -/
structure Schema.Named (s : Schema) : Prop where
  found : ∀ n < s.relations.length, s.findRelation? (s.relation ⟨n⟩).owner (s.relation ⟨n⟩).name = some ⟨n⟩
  fields : ∀ r ∈ s.relations, (s.entity r.owner).hasField r.name = false

theorem named_addRelation {r : Relation} (hs : s.Named) (h : s.addRelation r = .ok s') : s'.Named := by
  obtain ⟨rfl, hnew, hfield⟩ := addRelation_eq_ok h
  refine ⟨fun n hn => ?_, ?_⟩
  · rw [List.length_append, List.length_singleton] at hn
    rw [findRelation?_append (s := s) rfl]
    rcases Nat.lt_succ_iff_lt_or_eq.mp hn with hlt | rfl
    · rw [relation_append_of_lt (s := s) rfl hlt, hs.found n hlt]
      rfl
    · have hlast : (⟨s.entities, s.relations ++ [r]⟩ : Schema).relation ⟨s.relations.length⟩ = r := by
        rw [Schema.relation, List.getElem?_append_right (Nat.le_refl _), Nat.sub_self]
        rfl
      rw [hlast, hnew, Option.none_or, List.findIdx?_cons, beq_self_eq_true, beq_self_eq_true, Bool.and_self, if_pos rfl,
        Option.map_some, Nat.zero_add]
  · exact List.forall_mem_append.mpr ⟨hs.fields, List.forall_mem_singleton.mpr hfield⟩

theorem link_mirror_mirror (link : Link) : link.mirror.mirror = link := by
  cases link <;> rfl

theorem mirror_of_resolveLink {owner : EntityId} {d : LinkDecl} {link mirror : Link}
    (h : s.resolveLink owner d = .ok (link, mirror)) : mirror = link.mirror := by
  cases d with
  | foreignKey key =>
    obtain ⟨⟨⟩, -, h⟩ := bind_eq_ok.mp h
    cases h
    rfl
  | manyToMany throughName ownerKey targetKey =>
    obtain ⟨through, -, h⟩ := bind_eq_ok.mp h
    obtain ⟨⟨⟩, -, h⟩ := bind_eq_ok.mp h
    obtain ⟨⟨⟩, -, h⟩ := bind_eq_ok.mp h
    cases h
    rfl

theorem relation_first_added (a b : Relation) :
    (⟨s.entities, s.relations ++ [a] ++ [b]⟩ : Schema).relation ⟨s.relations.length⟩ = a := by
  rw [Schema.relation, List.append_assoc, List.getElem?_append_right (Nat.le_refl _), Nat.sub_self]
  rfl

theorem relation_second_added (a b : Relation) :
    (⟨s.entities, s.relations ++ [a] ++ [b]⟩ : Schema).relation ⟨s.relations.length + 1⟩ = b := by
  rw [Schema.relation, List.append_assoc, List.getElem?_append_right (Nat.le_add_right _ _), Nat.add_sub_cancel_left]
  rfl

theorem linked_addDeclared {d : RelationDecl} (hs : s.Linked) (h : s.addDeclared d = .ok s') : s'.Linked := by
  unfold Schema.addDeclared at h
  obtain ⟨owner, -, h⟩ := bind_eq_ok.mp h
  obtain ⟨target, -, h⟩ := bind_eq_ok.mp h
  obtain ⟨⟨link, mirror⟩, hlink, h⟩ := bind_eq_ok.mp h
  obtain ⟨s₁, hforward, hback⟩ := bind_eq_ok.mp h
  obtain ⟨hfound, hfields⟩ := named_addRelation (named_addRelation ⟨hs.found, hs.fields⟩ hforward) hback
  refine ⟨hfound, hfields, ?_⟩
  obtain rfl := mirror_of_resolveLink hlink
  obtain ⟨rfl, -, -⟩ := addRelation_eq_ok hforward
  obtain ⟨rfl, -, -⟩ := addRelation_eq_ok hback
  intro n hn
  dsimp only at hn ⊢
  rw [List.append_assoc, List.length_append] at hn
  have hlength : ∀ a b : Relation, ([a] ++ [b]).length = 2 := fun _ _ => rfl
  rw [hlength] at hn
  -- an edge that was there before, the one that was declared, or its mirror
  rcases Nat.lt_or_ge n s.relations.length with hlt | hge
  · rw [relation_append_of_lt (s := s) (List.append_assoc ..) hlt]
    obtain ⟨hmirror, hback⟩ := hs.mirrors n hlt
    rw [relation_append_of_lt (s := s) (List.append_assoc ..) hmirror]
    exact ⟨by rw [List.append_assoc, List.length_append, hlength]; omega, hback⟩
  · rcases Nat.lt_succ_iff_lt_or_eq.mp (show n < (s.relations.length + 1).succ by omega) with hlt | rfl
    · obtain rfl : n = s.relations.length := by omega
      rw [relation_first_added]
      dsimp only
      rw [relation_second_added]
      exact ⟨by rw [List.append_assoc, List.length_append, hlength]; omega, rfl, rfl, rfl⟩
    · rw [relation_second_added]
      dsimp only
      rw [relation_first_added]
      exact ⟨by rw [List.append_assoc, List.length_append, hlength]; omega, rfl, rfl, (link_mirror_mirror _).symm⟩

theorem linked_build {entities : List EntityDecl} {relations : List RelationDecl}
    (h : Schema.build entities relations = .ok s) : s.Linked := by
  unfold Schema.build at h
  obtain ⟨s₁, hentities, hrelations⟩ := bind_eq_ok.mp h
  have hnone : s₁.WellFormed ∧ s₁.relations = [] :=
    foldlM_keeps (fun _ _ _ _ => wellFormed_addEntity) ⟨wellFormed_empty, rfl⟩ hentities
  have hs₁ : s₁.Linked := by
    refine ⟨?_, ?_, ?_⟩ <;> simp [hnone.2]
  exact foldlM_keeps (fun _ _ _ _ => linked_addDeclared) hs₁ hrelations

end RelQuery
