import RelQuery.Proofs.Except
import RelQuery.Schema.Build

/-!
# Built schemas

What building checks, as an invariant of the schema: primary keys and the fields that hold links are columns, and
relations lead from an entity of the schema to another. Adding an entity keeps it because of the declaration, adding a
relation because of the checks on its link.
-/

namespace RelQuery

variable {s s' : Schema}

/-- The fields that hold a link from an entity to another are columns where they are said to be. -/
def Link.Fits (s : Schema) (owner target : EntityId) : Link → Prop
  | .foreignKey key => (s.entity owner).hasField key = true
  | .reverseForeignKey key => (s.entity target).hasField key = true
  | .manyToMany through ownerKey targetKey =>
    (s.entity through).hasField ownerKey = true ∧ (s.entity through).hasField targetKey = true

structure Schema.WellFormed (s : Schema) : Prop where
  keys : ∀ e ∈ s.entities, e.hasField e.pk = true
  owners : ∀ r ∈ s.relations, r.owner.index < s.entities.length
  targets : ∀ r ∈ s.relations, r.target.index < s.entities.length
  links : ∀ r ∈ s.relations, r.link.Fits s r.owner r.target

theorem hasField_iff {e : Entity} {field : String} : e.hasField field = true ↔ field ∈ e.columns.map (·.name) := by
  simp only [Entity.hasField, Entity.column?, List.find?_isSome, beq_iff_eq, List.mem_map]

theorem name_of_column? {e : Entity} {field : String} {c : Column} (h : e.column? field = some c) : c.name = field := by
  unfold Entity.column? at h
  have hfound := List.find?_some h
  exact eq_of_beq hfound

theorem name_pkColumn (e : Entity) : e.pkColumn.name = e.pk := by
  unfold Entity.pkColumn
  rcases hc : e.column? e.pk with - | c
  · rfl
  · exact name_of_column? hc

theorem hasField_of_any {e : Entity} {field : String} (h : e.columns.any (·.name == field) = true) :
    e.hasField field = true := by
  rw [List.any_eq_true] at h
  obtain ⟨c, hc, hname⟩ := h
  exact List.find?_isSome.mpr ⟨c, hc, hname⟩

theorem wellFormed_empty : (⟨[], []⟩ : Schema).WellFormed := by
  constructor <;> simp

theorem wellFormed_addEntity {d : EntityDecl} (h : s.WellFormed ∧ s.relations = []) (hadd : s.addEntity d = .ok s') :
    s'.WellFormed ∧ s'.relations = [] := by
  obtain ⟨hs, hnone⟩ := h
  unfold Schema.addEntity at hadd
  split at hadd
  · cases hadd
  · split at hadd
    · cases hadd
    · rename_i pk hpk
      cases hadd
      have hkeys : ∀ e ∈ s.entities ++ [⟨d.name, d.table, pk, d.columns⟩], e.hasField e.pk = true := by
        intro e he
        rcases List.mem_append.mp he with he | he
        · exact hs.keys e he
        · rw [List.mem_singleton.mp he]
          exact hasField_of_any (d.pk_isColumn pk hpk)
      refine ⟨⟨hkeys, ?_, ?_, ?_⟩, hnone⟩ <;> simp [hnone]

theorem name_of_entityNamed {name : String} {id : EntityId} (h : s.entityNamed name = .ok id) :
    ∃ hlt : id.index < s.entities.length, s.entities[id.index].name = name := by
  unfold Schema.entityNamed Schema.findEntity? at h
  split at h
  · rename_i found hfound
    obtain ⟨n, hn, rfl⟩ := Option.map_eq_some_iff.mp hfound
    cases h
    obtain ⟨hlt, hname, -⟩ := List.findIdx?_eq_some_iff_getElem.mp hn
    exact ⟨hlt, beq_iff_eq.mp hname⟩
  · cases h

theorem lt_of_entityNamed {name : String} {id : EntityId} (h : s.entityNamed name = .ok id) :
    id.index < s.entities.length :=
  (name_of_entityNamed h).1

theorem hasField_of_requireColumn {e : Entity} {field : String} (h : Schema.requireColumn e field = .ok ()) :
    e.hasField field = true := by
  unfold Schema.requireColumn at h
  split at h
  · assumption
  · cases h

theorem fits_of_resolveLink {owner : EntityId} {d : LinkDecl} {link mirror : Link}
    (h : s.resolveLink owner d = .ok (link, mirror)) (target : EntityId) :
    link.Fits s owner target ∧ mirror.Fits s target owner := by
  cases d with
  | foreignKey key =>
    unfold Schema.resolveLink at h
    obtain ⟨⟨⟩, hkey, h⟩ := bind_eq_ok.mp h
    cases h
    exact ⟨hasField_of_requireColumn hkey, hasField_of_requireColumn hkey⟩
  | manyToMany throughName ownerKey targetKey =>
    unfold Schema.resolveLink at h
    obtain ⟨through, -, h⟩ := bind_eq_ok.mp h
    obtain ⟨⟨⟩, hownerKey, h⟩ := bind_eq_ok.mp h
    obtain ⟨⟨⟩, htargetKey, h⟩ := bind_eq_ok.mp h
    cases h
    have hownerField := hasField_of_requireColumn hownerKey
    have htargetField := hasField_of_requireColumn htargetKey
    exact ⟨⟨hownerField, htargetField⟩, htargetField, hownerField⟩

theorem Link.fits_congr {owner target : EntityId} {link : Link} (h : s'.entities = s.entities) :
    link.Fits s' owner target ↔ link.Fits s owner target := by
  have hentity : s'.entity = s.entity := by
    funext id
    rw [Schema.entity, Schema.entity, h]
  unfold Link.Fits
  rw [hentity]

theorem wellFormed_addRelation {r : Relation} (hs : s.WellFormed) (ho : r.owner.index < s.entities.length)
    (ht : r.target.index < s.entities.length) (hl : r.link.Fits s r.owner r.target) (h : s.addRelation r = .ok s') :
    s'.WellFormed ∧ s'.entities = s.entities := by
  unfold Schema.addRelation at h
  dsimp only at h
  split at h
  · cases h
  · cases h
    refine ⟨⟨hs.keys, ?_, ?_, ?_⟩, rfl⟩
    · exact List.forall_mem_append.mpr ⟨hs.owners, List.forall_mem_singleton.mpr ho⟩
    · exact List.forall_mem_append.mpr ⟨hs.targets, List.forall_mem_singleton.mpr ht⟩
    · refine List.forall_mem_append.mpr ⟨fun r hr => ?_, List.forall_mem_singleton.mpr ?_⟩
      · exact (Link.fits_congr rfl).mpr (hs.links r hr)
      · exact (Link.fits_congr rfl).mpr hl

theorem wellFormed_addDeclared {d : RelationDecl} (hs : s.WellFormed) (h : s.addDeclared d = .ok s') :
    s'.WellFormed := by
  unfold Schema.addDeclared at h
  obtain ⟨owner, howner, h⟩ := bind_eq_ok.mp h
  obtain ⟨target, htarget, h⟩ := bind_eq_ok.mp h
  obtain ⟨⟨link, mirror⟩, hlink, h⟩ := bind_eq_ok.mp h
  obtain ⟨s₁, hforward, h⟩ := bind_eq_ok.mp h
  have ho := lt_of_entityNamed howner
  have ht := lt_of_entityNamed htarget
  obtain ⟨hfits, hmirror⟩ := fits_of_resolveLink hlink target
  obtain ⟨hs₁, hentities⟩ := wellFormed_addRelation hs ho ht hfits hforward
  exact (wellFormed_addRelation hs₁ (by rwa [hentities]) (by rwa [hentities])
    ((Link.fits_congr hentities).mpr hmirror) h).1

theorem wellFormed_build {entities : List EntityDecl} {relations : List RelationDecl}
    (h : Schema.build entities relations = .ok s) : s.WellFormed := by
  unfold Schema.build at h
  obtain ⟨s₁, hentities, hrelations⟩ := bind_eq_ok.mp h
  have hs₁ : s₁.WellFormed ∧ s₁.relations = [] :=
    foldlM_keeps (fun _ _ _ _ => wellFormed_addEntity) ⟨wellFormed_empty, rfl⟩ hentities
  exact foldlM_keeps (fun _ _ _ _ => wellFormed_addDeclared) hs₁.1 hrelations

end RelQuery
