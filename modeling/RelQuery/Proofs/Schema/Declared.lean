import Mathlib.Data.List.Nodup
import RelQuery.Proofs.Schema.Mirror

/-!
# Schemas as declared

A built schema holds the declared entities and, for every declared relation, two edges that are the mirrors of each
other. Adding a declaration appends its two edges and changes nothing that was there, so what one step adds is still
there after the whole run: the `n`-th declaration is found at positions `2n` and `2n + 1`.
-/

namespace RelQuery

variable {s s' : Schema}

/-- The entity is what was declared. -/
structure EntityDecl.IsKept (d : EntityDecl) (e : Entity) : Prop where
  name : e.name = d.name
  table : e.table = d.table
  pk : d.pk = some e.pk
  columns : e.columns = d.columns

theorem addEntity_eq_ok {d : EntityDecl} (h : s.addEntity d = .ok s') :
    d.name ∉ s.entities.map (·.name) ∧ ∃ e, d.IsKept e ∧ s'.entities = s.entities ++ [e] := by
  unfold Schema.addEntity at h
  split at h
  · cases h
  · rename_i hnew
    have hname : d.name ∉ s.entities.map (·.name) := by
      intro hmem
      obtain ⟨e, he, hname⟩ := List.mem_map.mp hmem
      apply hnew
      simp only [Schema.findEntity?, Option.isSome_map, List.findIdx?_isSome, List.any_eq_true, beq_iff_eq]
      exact ⟨e, he, hname⟩
    split at h
    · cases h
    · rename_i pk hpk
      cases h
      exact ⟨hname, ⟨d.name, d.table, pk, d.columns⟩, ⟨rfl, rfl, hpk, rfl⟩, rfl⟩

theorem entities_of_foldlM {ds : List EntityDecl} (hs : (s.entities.map (·.name)).Nodup)
    (h : ds.foldlM Schema.addEntity s = .ok s') :
    (s'.entities.map (·.name)).Nodup ∧
      ∃ added, s'.entities = s.entities ++ added ∧ List.Forall₂ EntityDecl.IsKept ds added := by
  induction ds generalizing s with
  | nil =>
    cases h
    exact ⟨hs, [], (List.append_nil _).symm, .nil⟩
  | cons d rest ih =>
    rw [List.foldlM_cons] at h
    obtain ⟨mid, hmid, hrest⟩ := bind_eq_ok.mp h
    obtain ⟨hnew, e, he, hentities⟩ := addEntity_eq_ok hmid
    have hnodup : (mid.entities.map (·.name)).Nodup := by
      rw [hentities, List.map_append, List.map_singleton, he.name]
      exact List.nodup_append_comm.mp (List.nodup_cons.mpr ⟨hnew, hs⟩)
    obtain ⟨hall, added, hadded, hkept⟩ := ih hnodup hrest
    refine ⟨hall, e :: added, ?_, .cons he hkept⟩
    rw [hadded, hentities, List.append_assoc]
    rfl

/-- The second schema has the same entities, and all relations of the first in their places. -/
structure Schema.GrowsTo (s s' : Schema) : Prop where
  entities : s'.entities = s.entities
  relations : ∃ more, s'.relations = s.relations ++ more

namespace Schema.GrowsTo

theorem refl (s : Schema) : s.GrowsTo s := ⟨rfl, [], (List.append_nil _).symm⟩

theorem trans {s'' : Schema} (h : s.GrowsTo s') (h' : s'.GrowsTo s'') : s.GrowsTo s'' := by
  obtain ⟨more, hmore⟩ := h.relations
  obtain ⟨later, hlater⟩ := h'.relations
  refine ⟨h'.entities.trans h.entities, more ++ later, ?_⟩
  rw [hlater, hmore, List.append_assoc]

theorem entity_eq (h : s.GrowsTo s') (id : EntityId) : s'.entity id = s.entity id := by
  rw [Schema.entity, Schema.entity, h.entities]

theorem relation_eq (h : s.GrowsTo s') {id : RelationId} (hid : id.index < s.relations.length) :
    s'.relation id = s.relation id := by
  obtain ⟨more, hmore⟩ := h.relations
  exact relation_append_of_lt hmore hid

end Schema.GrowsTo

/-! ### Declared relations -/

/-- The entity of a name. -/
def Schema.IsNamed (s : Schema) (id : EntityId) (name : String) : Prop :=
  id.index < s.entities.length ∧ (s.entity id).name = name

/-- The link that is written down in a declaration. -/
def LinkDecl.IsWritten (s : Schema) : LinkDecl → Link → Prop
  | .foreignKey key, link => link = .foreignKey key
  | .manyToMany through ownerKey targetKey, link =>
    ∃ id, s.IsNamed id through ∧ link = .manyToMany id ownerKey targetKey

/-- The two edges of a declared relation: one on its owner, and its mirror on the target. -/
structure RelationDecl.Yields (d : RelationDecl) (s : Schema) (r m : Relation) : Prop where
  owner : s.IsNamed r.owner d.owner
  target : s.IsNamed r.target d.target
  name : r.name = d.name
  link : d.link.IsWritten s r.link
  nullable : r.nullable = d.nullable
  isVirtual : r.isVirtual = false
  isMirrorOf : m.IsMirrorOf r
  mirrorName : m.name = d.relatedName.getD (Schema.defaultMirrorName (s.entity r.owner))
  mirrorNullable : m.nullable = true
  mirrorIsVirtual : m.isVirtual = true

theorem isNamed_of_entityNamed {name : String} {id : EntityId} (h : s.entityNamed name = .ok id) :
    s.IsNamed id name := by
  obtain ⟨hlt, hname⟩ := name_of_entityNamed h
  refine ⟨hlt, ?_⟩
  rw [Schema.entity, List.getElem?_eq_getElem hlt]
  exact hname

theorem isWritten_of_resolveLink {owner : EntityId} {d : LinkDecl} {link mirror : Link}
    (h : s.resolveLink owner d = .ok (link, mirror)) : d.IsWritten s link := by
  cases d with
  | foreignKey key =>
    obtain ⟨⟨⟩, -, h⟩ := bind_eq_ok.mp h
    cases h
    rfl
  | manyToMany through ownerKey targetKey =>
    obtain ⟨id, hid, h⟩ := bind_eq_ok.mp h
    obtain ⟨⟨⟩, -, h⟩ := bind_eq_ok.mp h
    obtain ⟨⟨⟩, -, h⟩ := bind_eq_ok.mp h
    cases h
    exact ⟨id, isNamed_of_entityNamed hid, rfl⟩

theorem Schema.IsNamed.grow {id : EntityId} {name : String} (h : s.IsNamed id name) (hgrows : s.GrowsTo s') :
    s'.IsNamed id name := by
  unfold Schema.IsNamed
  rw [hgrows.entities, hgrows.entity_eq]
  exact h

theorem LinkDecl.IsWritten.grow {d : LinkDecl} {link : Link} (h : d.IsWritten s link) (hgrows : s.GrowsTo s') :
    d.IsWritten s' link := by
  cases d with
  | foreignKey key => exact h
  | manyToMany through ownerKey targetKey =>
    obtain ⟨id, hid, hlink⟩ := h
    exact ⟨id, hid.grow hgrows, hlink⟩

theorem RelationDecl.Yields.grow {d : RelationDecl} {r m : Relation} (h : d.Yields s r m) (hgrows : s.GrowsTo s') :
    d.Yields s' r m := by
  refine { h with owner := h.owner.grow hgrows, target := h.target.grow hgrows, link := h.link.grow hgrows, mirrorName := ?_ }
  rw [hgrows.entity_eq]
  exact h.mirrorName

theorem addDeclared_eq_ok {d : RelationDecl} (h : s.addDeclared d = .ok s') :
    ∃ r m, d.Yields s r m ∧ r.mirror = ⟨s.relations.length + 1⟩ ∧ m.mirror = ⟨s.relations.length⟩ ∧
      s'.entities = s.entities ∧ s'.relations = s.relations ++ [r, m] := by
  unfold Schema.addDeclared at h
  obtain ⟨owner, howner, h⟩ := bind_eq_ok.mp h
  obtain ⟨target, htarget, h⟩ := bind_eq_ok.mp h
  obtain ⟨⟨link, mirror⟩, hlink, h⟩ := bind_eq_ok.mp h
  obtain ⟨s₁, hforward, hback⟩ := bind_eq_ok.mp h
  obtain rfl := mirror_of_resolveLink hlink
  obtain ⟨rfl, -, -⟩ := addRelation_eq_ok hforward
  obtain ⟨rfl, -, -⟩ := addRelation_eq_ok hback
  let r : Relation :=
    { name := d.name, link, owner, target, nullable := d.nullable, isVirtual := false
      relatedName := d.relatedName, mirror := ⟨s.relations.length + 1⟩ }
  let m : Relation :=
    { name := d.relatedName.getD (Schema.defaultMirrorName (s.entity owner)), link := link.mirror
      owner := target, target := owner, nullable := true, isVirtual := true
      relatedName := some d.name, mirror := ⟨s.relations.length⟩ }
  have hyields : d.Yields s r m :=
    { owner := isNamed_of_entityNamed howner
      target := isNamed_of_entityNamed htarget
      name := rfl
      link := isWritten_of_resolveLink hlink
      nullable := rfl
      isVirtual := rfl
      isMirrorOf := ⟨rfl, rfl, rfl⟩
      mirrorName := rfl
      mirrorNullable := rfl
      mirrorIsVirtual := rfl }
  exact ⟨r, m, hyields, rfl, rfl, rfl, List.append_assoc ..⟩

/-- The declaration is found at these positions, with its mirror. -/
structure Schema.Declares (s : Schema) (d : RelationDecl) (forward back : RelationId) : Prop where
  inRange : forward.index < s.relations.length ∧ back.index < s.relations.length
  yields : d.Yields s (s.relation forward) (s.relation back)
  mirror : (s.relation forward).mirror = back
  mirrorBack : (s.relation back).mirror = forward

theorem Schema.Declares.grow {d : RelationDecl} {forward back : RelationId} (h : s.Declares d forward back)
    (hgrows : s.GrowsTo s') : s'.Declares d forward back := by
  obtain ⟨⟨hforward, hback⟩, hyields, hmirror, hmirrorBack⟩ := h
  have hlength : s.relations.length ≤ s'.relations.length := by
    obtain ⟨more, hmore⟩ := hgrows.relations
    rw [hmore, List.length_append]
    exact Nat.le_add_right _ _
  refine ⟨⟨by omega, by omega⟩, ?_, ?_, ?_⟩
  · rw [hgrows.relation_eq hforward, hgrows.relation_eq hback]
    exact hyields.grow hgrows
  · rw [hgrows.relation_eq hforward]
    exact hmirror
  · rw [hgrows.relation_eq hback]
    exact hmirrorBack

theorem declares_addDeclared {d : RelationDecl} (h : s.addDeclared d = .ok s') :
    s.GrowsTo s' ∧ s'.relations.length = s.relations.length + 2 ∧
      s'.Declares d ⟨s.relations.length⟩ ⟨s.relations.length + 1⟩ := by
  obtain ⟨r, m, hyields, hmirror, hmirrorBack, hentities, hrelations⟩ := addDeclared_eq_ok h
  have hgrows : s.GrowsTo s' := ⟨hentities, [r, m], hrelations⟩
  have hlength : s'.relations.length = s.relations.length + 2 := by
    rw [hrelations, List.length_append]
    rfl
  have hr : s'.relation ⟨s.relations.length⟩ = r := by
    simp [Schema.relation, hrelations]
  have hm : s'.relation ⟨s.relations.length + 1⟩ = m := by
    simp [Schema.relation, hrelations]
  refine ⟨hgrows, hlength, ⟨?_, ?_⟩, ?_, ?_, ?_⟩
  · simp only
    omega
  · simp only
    omega
  · rw [hr, hm]
    exact hyields.grow hgrows
  · rw [hr]
    exact hmirror
  · rw [hm]
    exact hmirrorBack

/-- The edges of a list of declarations follow each other, two by two. -/
theorem declares_foldlM {ds : List RelationDecl} (h : ds.foldlM Schema.addDeclared s = .ok s') :
    s.GrowsTo s' ∧ s'.relations.length = s.relations.length + 2 * ds.length ∧
      ∀ n (hn : n < ds.length),
        s'.Declares ds[n] ⟨s.relations.length + 2 * n⟩ ⟨s.relations.length + 2 * n + 1⟩ := by
  induction ds generalizing s with
  | nil =>
    cases h
    exact ⟨.refl _, rfl, fun n hn => absurd hn (Nat.not_lt_zero n)⟩
  | cons d rest ih =>
    rw [List.foldlM_cons] at h
    obtain ⟨mid, hmid, hrest⟩ := bind_eq_ok.mp h
    obtain ⟨hfirst, hmidLength, hdeclares⟩ := declares_addDeclared hmid
    obtain ⟨hlater, hlength, hall⟩ := ih hrest
    refine ⟨hfirst.trans hlater, ?_, fun n hn => ?_⟩
    · rw [hlength, hmidLength, List.length_cons]
      omega
    · cases n with
      | zero => exact hdeclares.grow hlater
      | succ n =>
        -- the edges of the other declarations come after the two of the first
        have hnext := hall n (Nat.lt_of_succ_lt_succ hn)
        rw [hmidLength] at hnext
        rw [show s.relations.length + 2 * (n + 1) = s.relations.length + 2 + 2 * n by omega]
        exact hnext

/-- Where all edges are those of declarations, the mirror of the mirror of an edge is the edge. -/
theorem mirror_mirror_of_declares {ds : List RelationDecl} (hlength : s.relations.length = 2 * ds.length)
    (hdeclares : ∀ n (hn : n < ds.length), s.Declares ds[n] ⟨2 * n⟩ ⟨2 * n + 1⟩) {id : RelationId}
    (hid : id.index < s.relations.length) : (s.relation (s.relation id).mirror).mirror = id := by
  have hn : id.index / 2 < ds.length := by omega
  have hpair := hdeclares (id.index / 2) hn
  rcases Nat.mod_two_eq_zero_or_one id.index with heven | hodd
  · have hforward : id = ⟨2 * (id.index / 2)⟩ := congrArg RelationId.mk (by omega)
    rw [hforward, hpair.mirror, hpair.mirrorBack]
  · have hback : id = ⟨2 * (id.index / 2) + 1⟩ := congrArg RelationId.mk (by omega)
    rw [hback, hpair.mirrorBack, hpair.mirror]

/-! ### Looking relations up -/

theorem mem_relationIdsOf {e : EntityId} {id : RelationId} :
    id ∈ s.relationIdsOf e ↔ id.index < s.relations.length ∧ (s.relation id).owner = e := by
  simp only [Schema.relationIdsOf, List.mem_filter, List.mem_map, List.mem_range, beq_iff_eq]
  constructor
  · rintro ⟨⟨n, hn, rfl⟩, howner⟩
    exact ⟨hn, howner⟩
  · rintro ⟨hid, howner⟩
    exact ⟨⟨id.index, hid, rfl⟩, howner⟩

theorem nodup_relationIdsOf (s : Schema) (e : EntityId) : (s.relationIdsOf e).Nodup := by
  refine List.Nodup.filter _ (List.Nodup.map ?_ List.nodup_range)
  intro m n he
  exact congrArg RelationId.index he

theorem relationsOf_eq (s : Schema) (e : EntityId) : s.relationsOf e = (s.relationIdsOf e).map s.relation := by
  have hall : s.relations = ((List.range s.relations.length).map RelationId.mk).map s.relation := by
    apply List.ext_getElem
    · simp
    · intro n hn _
      simp [Schema.relation, List.getElem?_eq_getElem hn]
  rw [Schema.relationsOf, Schema.relationIdsOf]
  conv_lhs => rw [hall]
  rw [List.filter_map]
  rfl

theorem Schema.Linked.findRelation?_iff (h : s.Linked) {e : EntityId} {name : String} {id : RelationId} :
    s.findRelation? e name = some id ↔
      id.index < s.relations.length ∧ (s.relation id).owner = e ∧ (s.relation id).name = name := by
  constructor
  · intro hfound
    have hnamed := (relation_of_findRelation? hfound).2
    unfold Schema.findRelation? at hfound
    obtain ⟨n, hn, rfl⟩ := Option.map_eq_some_iff.mp hfound
    exact ⟨(List.findIdx?_eq_some_iff_getElem.mp hn).1, hnamed⟩
  · rintro ⟨hid, rfl, rfl⟩
    exact h.found id.index hid

theorem Schema.Linked.nodup_names (h : s.Linked) (e : EntityId) : ((s.relationsOf e).map (·.name)).Nodup := by
  rw [relationsOf_eq, List.map_map]
  refine List.Nodup.map_on ?_ (nodup_relationIdsOf s e)
  intro id hid id' hid' hname
  obtain ⟨hlt, howner⟩ := mem_relationIdsOf.mp hid
  obtain ⟨hlt', howner'⟩ := mem_relationIdsOf.mp hid'
  have hfound := h.findRelation?_iff.mpr ⟨hlt, howner, rfl⟩
  have hfound' := h.findRelation?_iff.mpr ⟨hlt', howner', rfl⟩
  have hsame : (s.relation id).name = (s.relation id').name := hname
  rw [hsame, hfound'] at hfound
  exact (Option.some.inj hfound).symm

/-- What a schema that is built of declarations holds. -/
structure Schema.BuiltOf (s : Schema) (entities : List EntityDecl) (relations : List RelationDecl) : Prop where
  entities : List.Forall₂ EntityDecl.IsKept entities s.entities
  names : (s.entities.map (·.name)).Nodup
  keys : ∀ e ∈ s.entities, e.pk ∈ e.columns.map (·.name)
  /-- There are two edges for each declaration, and no others. -/
  edges : s.relations.length = 2 * relations.length
  declares : ∀ n (hn : n < relations.length), s.Declares relations[n] ⟨2 * n⟩ ⟨2 * n + 1⟩
  mirrors : ∀ id : RelationId, id.index < s.relations.length →
    (s.relation id).mirror.index < s.relations.length ∧ (s.relation (s.relation id).mirror).mirror = id ∧
      (s.relation (s.relation id).mirror).IsMirrorOf (s.relation id)
  links : ∀ r ∈ s.relations, r.link.Fits s r.owner r.target
  fields : ∀ r ∈ s.relations, r.name ∉ (s.entity r.owner).columns.map (·.name)
  distinct : ∀ e, ((s.relationsOf e).map (·.name)).Nodup
  found : ∀ e name id, s.findRelation? e name = some id ↔
    id.index < s.relations.length ∧ (s.relation id).owner = e ∧ (s.relation id).name = name
  /-- Every edge is listed once, with its owner. -/
  listed : ∀ e, (s.relationIdsOf e).Nodup ∧ s.relationsOf e = (s.relationIdsOf e).map s.relation ∧
    ∀ id, id ∈ s.relationIdsOf e ↔ id.index < s.relations.length ∧ (s.relation id).owner = e

/-- A schema that builds holds what was declared: the entities with their keys, and for every relation its two edges,
which are each other's mirrors, lead along columns, and are found by owner and name. -/
theorem builtOf_build {entities : List EntityDecl} {relations : List RelationDecl}
    (h : Schema.build entities relations = .ok s) : s.BuiltOf entities relations := by
  have hwell := wellFormed_build h
  have hlinked := linked_build h
  obtain ⟨start, hstart, hrelations⟩ := bind_eq_ok.mp h
  have hnone : start.relations = [] :=
    (foldlM_keeps (fun _ _ _ _ => wellFormed_addEntity) ⟨wellFormed_empty, rfl⟩ hstart).2
  obtain ⟨hnames, added, hadded, hkept⟩ := entities_of_foldlM (s := ⟨[], []⟩) List.nodup_nil hstart
  obtain ⟨hgrows, hlength, hdeclares⟩ := declares_foldlM hrelations
  rw [hnone, List.length_nil, Nat.zero_add] at hlength
  have hdeclares' : ∀ n (hn : n < relations.length), s.Declares relations[n] ⟨2 * n⟩ ⟨2 * n + 1⟩ := by
    intro n hn
    have hat := hdeclares n hn
    rwa [hnone, List.length_nil, Nat.zero_add] at hat
  rw [← hgrows.entities] at hadded hnames
  exact
    { entities := by
        rw [hadded]
        exact hkept
      names := hnames
      keys := fun e he => hasField_iff.mp (hwell.keys e he)
      edges := hlength
      declares := hdeclares'
      mirrors := fun id hid =>
        ⟨(hlinked.mirrors id.index hid).1, mirror_mirror_of_declares hlength hdeclares' hid, (hlinked.mirrors id.index hid).2⟩
      links := hwell.links
      fields := fun r hr hmem => by
        rw [← hasField_iff, hlinked.fields r hr] at hmem
        cases hmem
      distinct := hlinked.nodup_names
      found := fun e name id => hlinked.findRelation?_iff
      listed := fun e => ⟨nodup_relationIdsOf s e, relationsOf_eq s e, fun id => mem_relationIdsOf⟩ }

/-- People with a supervisor and with friends, both people. -/
def peopleEntities : List EntityDecl :=
  [⟨"Person", "people", some "id", [⟨"id", "id", false⟩, ⟨"boss", "boss_id", true⟩], by decide⟩,
   ⟨"Friendship", "friendships", some "id",
     [⟨"id", "id", false⟩, ⟨"from", "from_id", false⟩, ⟨"to", "to_id", false⟩], by decide⟩]

def peopleRelations : List RelationDecl :=
  [⟨"Person", "supervisor", "Person", .foreignKey "boss", true, none⟩,
   ⟨"Person", "friends", "Person", .manyToMany "Friendship" "from" "to", true, some "friendOf"⟩]

theorem builtOf_people :
    ∃ people, Schema.build peopleEntities peopleRelations = .ok people ∧ people.BuiltOf peopleEntities peopleRelations ∧
      people.relations.map (·.name) = ["supervisor", "persons", "friends", "friendOf"] := by
  have hnames : (Schema.build peopleEntities peopleRelations).map (fun people => people.relations.map (·.name)) =
      .ok ["supervisor", "persons", "friends", "friendOf"] := by rfl
  obtain ⟨people, hbuild, hrelations⟩ := map_eq_ok.mp hnames
  exact ⟨people, hbuild, builtOf_build hbuild, hrelations⟩

end RelQuery
