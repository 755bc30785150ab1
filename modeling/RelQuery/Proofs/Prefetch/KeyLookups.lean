import RelQuery.Proofs.Plan.Scope
import RelQuery.Proofs.Prefetch.Lookups

/-!
# Lookups that reach their keys

The name of the field with the keys of the owners goes into the text of a lookup, and the follow-up statement finds the
field by reading that text. A built schema may use any names, so two things can come between. The text can be read as
other names than it was written from. And the name read can stand for something else: `pk` is the primary key also
where a field is called so, unless a relation is.
-/

namespace RelQuery

variable {s : Schema} {r : Relation} {root : EntityId}

theorem segmentsOf_of_parse_isIn {raw : String} {segments : List String}
    (h : Lookup.parse raw = ⟨raw, segments, .isIn⟩) : segmentsOf raw = segments ++ ["in"] := by
  unfold Lookup.parse at h
  dsimp only at h
  split at h
  · rename_i op hop
    split at h
    · cases h
      obtain ⟨last, hlast, hop⟩ := Option.bind_eq_some_iff.mp hop
      have hnamed := List.find?_some hop
      obtain rfl : Operator.isIn.name = last := eq_of_beq hnamed
      exact (List.dropLast_append_getLast? _ hlast).symm
    · cases h
  · cases h

theorem parse_isIn_iff {segments : List String} (hne : segments ≠ []) :
    Lookup.parse (joinSegments (segments ++ ["in"])) = ⟨joinSegments (segments ++ ["in"]), segments, .isIn⟩ ↔
      ∀ name ∈ segments, SegmentName name :=
  ⟨fun h => (segmentsOf_joinSegments_iff segmentName_in).mp (segmentsOf_of_parse_isIn h), parse_isIn hne⟩

theorem parse_raw (raw : String) : ⟨raw, (Lookup.parse raw).parts, (Lookup.parse raw).operator⟩ = Lookup.parse raw := by
  unfold Lookup.parse
  dsimp only
  split
  · split <;> rfl
  · rfl

/-- The name is read, at an entity, as the column `key`: a relation of the name has to be held by that column. -/
def Schema.ReadsAs (s : Schema) (entity : EntityId) (name key : String) : Prop :=
  match s.findRelation? entity name with
  | some id => (s.relation id).link = .foreignKey key
  | none => (if name = pkAlias then (s.entity entity).pk else name) = key

theorem name_of_fieldColumn? {e : Entity} {field : String} {c : Column} (h : e.fieldColumn? field = some c) :
    c.name = if field = pkAlias then e.pk else field := by
  unfold Entity.fieldColumn? at h
  split at h
  · rename_i hpk
    cases h
    rw [if_pos hpk, name_pkColumn]
  · rename_i hpk
    rw [if_neg hpk, name_of_column? h]

theorem resolveFieldFrom_relation {lookup name : String} {parts walked : List String} {entity : EntityId}
    {id : RelationId} (hfound : s.findRelation? entity name = some id) :
    s.resolveFieldFrom lookup parts walked entity [name] = .ok ⟨⟨walked⟩, entity, .relation id⟩ := by
  rw [Schema.resolveFieldFrom, hfound]
  rfl

theorem exists_bindField_of_resolve {raw : String} {parts : List String} {path : Path} {c : Column} {t : FieldTarget}
    (ht : s.resolveField root raw parts = .ok t) :
    (∃ referenced, s.bindField root raw parts = .ok (path, c, referenced)) ↔
      (t.columnTarget s).path = path ∧
        (s.entity (t.columnTarget s).entity).column? (t.columnTarget s).column = some c := by
  simp only [bindField_eq_ok, ht, Except.ok.injEq, exists_eq_left', exists_and_left, exists_eq', and_true]

/-- Names that lead to an entity, and a name there: the column is found exactly when the last name is read as it. -/
theorem exists_bindField_iff {raw name key : String} {parts walked : List String} {entity : EntityId}
    (hkey : (s.entity entity).hasField key = true)
    (hresolve : s.resolveField root raw parts = s.resolveFieldFrom raw parts walked entity [name]) :
    (∃ c referenced, (s.entity entity).column? key = some c ∧
      s.bindField root raw parts = .ok (⟨walked⟩, c, referenced)) ↔ s.ReadsAs entity name key := by
  obtain ⟨c, hc⟩ := Option.isSome_iff_exists.mp hkey
  simp only [hc, Option.some.injEq, exists_and_left, exists_eq_left']
  have hnamed : ∀ {field}, (s.entity entity).column? field = some c ↔ field = key :=
    ⟨fun h => (name_of_column? h).symm.trans (name_of_column? hc), fun h => h ▸ hc⟩
  unfold Schema.ReadsAs
  rcases hfind : s.findRelation? entity name with - | id
  · rcases hfield : (s.entity entity).fieldColumn? name with - | found
    · refine iff_of_false ?_ fun hreads => ?_
      · rintro ⟨referenced, hbound⟩
        obtain ⟨t, ht, -⟩ := bindField_eq_ok.mp hbound
        rw [hresolve, Schema.resolveFieldFrom, hfind] at ht
        dsimp only at ht
        rw [hfield] at ht
        cases ht
      · unfold Entity.fieldColumn? at hfield
        split at hfield
        · cases hfield
        · rename_i hpk
          rw [if_neg hpk] at hreads
          rw [hreads, hc] at hfield
          cases hfield
    · rw [exists_bindField_of_resolve (hresolve.trans (resolveFieldFrom_column hfind hfield)),
        ← name_of_fieldColumn? hfield]
      exact (and_iff_right rfl).trans hnamed
  · rw [exists_bindField_of_resolve (hresolve.trans (resolveFieldFrom_relation hfind)), FieldTarget.columnTarget]
    dsimp only
    split
    · rename_i held hlink
      rw [hlink, Link.foreignKey.injEq]
      exact (and_iff_right rfl).trans hnamed
    · rename_i hother
      -- A relation that no field of the entity holds is read as a column of where it leads to.
      refine iff_of_false ?_ fun hlink => hother key hlink
      rintro ⟨hpath, -⟩
      exact absurd (congrArg Path.segments hpath) (by simp [Path.child])

/-- The text of the lookup that a follow-up statement of the relation asks by. -/
def Relation.lookupText (s : Schema) (r : Relation) : String :=
  joinSegments (r.keyLookup s ++ ["in"])

/-- The column that holds the keys of the owners, as it is reached from the loaded entity: the primary key of what a
foreign key leads to, the field of a foreign key that leads back, or the primary key of the owners behind the mirror. -/
def Relation.keyTarget (s : Schema) (r : Relation) : ColumnTarget :=
  match r.link with
  | .foreignKey _ => ⟨.root, r.target, (s.entity r.target).pk⟩
  | .reverseForeignKey key => ⟨.root, r.target, key⟩
  | .manyToMany .. => ⟨⟨[s.mirrorName r]⟩, r.owner, (s.entity r.owner).pk⟩

/-- The lookup of the relation, as its text is read, asks for the column of the keys to be one of the given values. -/
structure Relation.ReachesKey (s : Schema) (r : Relation) : Prop where
  operator : (Lookup.parse (r.lookupText s)).operator = .isIn
  bound : ∃ c referenced, (s.entity (r.keyTarget s).entity).column? (r.keyTarget s).column = some c ∧
    s.bindField r.target (r.lookupText s) (Lookup.parse (r.lookupText s)).parts =
      .ok ((r.keyTarget s).path, c, referenced)

/-- The general name of primary keys stands for that of the entity: a relation of this name is held by it. -/
def Schema.KeepsPk (s : Schema) (entity : EntityId) : Prop :=
  ∀ id, s.findRelation? entity pkAlias = some id → (s.relation id).link = .foreignKey (s.entity entity).pk

/-- What the last name in the lookup of the relation stands for is the column of the keys. -/
def Relation.TellsKey (s : Schema) (r : Relation) : Prop :=
  match r.link with
  | .foreignKey _ => s.KeepsPk r.target
  | .reverseForeignKey key => key = pkAlias → (s.entity r.target).pk = pkAlias
  | .manyToMany .. => s.KeepsPk r.owner

theorem readsAs_pk_iff {entity : EntityId} : s.ReadsAs entity pkAlias (s.entity entity).pk ↔ s.KeepsPk entity := by
  unfold Schema.ReadsAs Schema.KeepsPk
  rcases s.findRelation? entity pkAlias with - | id
  · exact iff_of_true (if_pos rfl) fun _ hnone => by cases hnone
  · exact ⟨fun h _ hid => Option.some.inj hid ▸ h, fun h => h id rfl⟩

theorem readsAs_self_iff {entity : EntityId} {key : String} (hnone : s.findRelation? entity key = none) :
    s.ReadsAs entity key key ↔ (key = pkAlias → (s.entity entity).pk = pkAlias) := by
  unfold Schema.ReadsAs
  rw [hnone]
  dsimp only
  split
  · rename_i hpk
    rw [hpk]
    exact ⟨fun h _ => h, fun h => h rfl⟩
  · rename_i hpk
    exact iff_of_true rfl fun h => absurd h hpk

theorem exists_bindField_keyLookup (hs : s.WellFormed) (hlinked : s.Linked) (hr : r ∈ s.relations) (raw : String) :
    (∃ c referenced, (s.entity (r.keyTarget s).entity).column? (r.keyTarget s).column = some c ∧
      s.bindField r.target raw (r.keyLookup s) = .ok ((r.keyTarget s).path, c, referenced)) ↔ r.TellsKey s := by
  have hfits := hs.links r hr
  unfold Link.Fits at hfits
  cases hlink : r.link with
  | foreignKey key =>
    simp only [Relation.keyTarget, Relation.keyLookup, Relation.TellsKey, hlink]
    exact (exists_bindField_iff (hs.hasField_pk (hs.targets r hr)) rfl).trans readsAs_pk_iff
  | reverseForeignKey key =>
    simp only [Relation.keyTarget, Relation.keyLookup, Relation.TellsKey, hlink]
    rw [hlink] at hfits
    exact (exists_bindField_iff hfits rfl).trans (readsAs_self_iff (hlinked.findRelation?_field hfits))
  | manyToMany through ownerKey targetKey =>
    simp only [Relation.keyTarget, Relation.keyLookup, Relation.TellsKey, hlink]
    obtain ⟨hfound, hmirror, -⟩ := hlinked.find_mirror hr
    refine (exists_bindField_iff (hs.hasField_pk (hs.owners r hr)) ?_).trans readsAs_pk_iff
    rw [Schema.resolveField, Schema.resolveFieldFrom, hfound]
    dsimp only
    rw [if_neg (by simp), hmirror.target]
    rfl

theorem bindFilters_of_reachesKey (h : r.ReachesKey s) (keys : List Value) :
    s.bindFilters r.target [.lookup (r.lookupText s) (.list (keys.map .scalar))] =
      .ok [.cond ⟨r.lookupText s, (r.keyTarget s).path,
        (s.entity (r.keyTarget s).entity).dbName (r.keyTarget s).column, .isIn, .many keys⟩] := by
  obtain ⟨c, referenced, hc, hbound⟩ := h.bound
  have hread : Lookup.parse (r.lookupText s) =
      ⟨r.lookupText s, (Lookup.parse (r.lookupText s)).parts, .isIn⟩ := by
    rw [← h.operator]
    exact (parse_raw _).symm
  rw [Schema.bindFilters, Schema.bindFilter, bindLookup_of_parse hread hbound keys, Entity.dbName, hc]
  rfl

/-- The lookup that a follow-up statement of any relation asks by. Its text is read as the names it is written from
exactly when these are names of segments. It then reaches the column of the keys exactly when the last of the names
stands for it, and wherever it reaches that column the statement compares it with the keys. -/
theorem childRequest_reachesKey {entities : List EntityDecl} {relations : List RelationDecl}
    (h : Schema.build entities relations = .ok s) (hr : r ∈ s.relations) :
    (Lookup.parse (r.lookupText s) = ⟨r.lookupText s, r.keyLookup s, .isIn⟩ ↔
        ∀ name ∈ r.keyLookup s, SegmentName name) ∧
      ((∀ name ∈ r.keyLookup s, SegmentName name) → (r.ReachesKey s ↔ r.TellsKey s)) ∧
      ∀ projection orderBy childPaths keys,
        let request := childRequest s r projection orderBy childPaths keys
        request.root = r.target ∧ request.filters = [.lookup (r.lookupText s) (.list (keys.map .scalar))] ∧
          (r.ReachesKey s → s.bindFilters request.root request.filters =
            .ok [.cond ⟨r.lookupText s, (r.keyTarget s).path,
              (s.entity (r.keyTarget s).entity).dbName (r.keyTarget s).column, .isIn, .many keys⟩]) := by
  refine ⟨parse_isIn_iff keyLookup_ne_nil, fun hnames => ?_, fun projection orderBy childPaths keys => ?_⟩
  · have hread : Lookup.parse (r.lookupText s) = ⟨r.lookupText s, r.keyLookup s, .isIn⟩ :=
      parse_isIn keyLookup_ne_nil hnames
    have hbound := exists_bindField_keyLookup (wellFormed_build h) (linked_build h) hr (r.lookupText s)
    constructor
    · intro hreaches
      have hcolumn := hreaches.bound
      rw [hread] at hcolumn
      exact hbound.mp hcolumn
    · intro htells
      refine ⟨by rw [hread], ?_⟩
      rw [hread]
      exact hbound.mpr htells
  · obtain ⟨hroot, -, -, -⟩ := childRequest_spec s r projection orderBy childPaths keys
    have hfilters := filters_childRequest (s := s) r projection orderBy childPaths keys
    refine ⟨hroot, hfilters, fun hreaches => ?_⟩
    rw [hroot, hfilters]
    exact bindFilters_of_reachesKey hreaches keys

theorem childRequest_reachesKey_tags :
    Schema.build taggedEntities taggedRelations = .ok taggedSchema ∧
      taggedSchema.relation ⟨0⟩ ∈ taggedSchema.relations ∧ (taggedSchema.relation ⟨0⟩).ReachesKey taggedSchema ∧
      taggedSchema.bindFilters ⟨1⟩ [.lookup "books__pk__in" (.list [.scalar (.int 7)])] =
        .ok [.cond ⟨"books__pk__in", ⟨["books"]⟩, "id", .isIn, .many [.int 7]⟩] := by
  have hbuild : Schema.build taggedEntities taggedRelations = .ok taggedSchema := by rfl
  have hmem : taggedSchema.relation ⟨0⟩ ∈ taggedSchema.relations := by decide
  have hnames : ∀ name ∈ (taggedSchema.relation ⟨0⟩).keyLookup taggedSchema, SegmentName name := by decide
  have htells : (taggedSchema.relation ⟨0⟩).TellsKey taggedSchema := by
    have hnone : taggedSchema.findRelation? ⟨0⟩ pkAlias = none := by decide
    intro id hid
    rw [show (taggedSchema.relation ⟨0⟩).owner = ⟨0⟩ from rfl, hnone] at hid
    cases hid
  obtain ⟨-, hreaches, hrequest⟩ := childRequest_reachesKey hbuild hmem
  have hbound := (hreaches hnames).mpr htells
  obtain ⟨hroot, hfilters, hbind⟩ := hrequest .empty [] [] [.int 7]
  have hcond := hbind hbound
  rw [hroot, hfilters] at hcond
  exact ⟨hbuild, hmem, hbound, hcond⟩

/-- Folders, whose foreign keys to the folders they are in go by the general name of primary keys. -/
def folderEntities : List EntityDecl :=
  [⟨"Folder", "folders", some "id", [⟨"id", "id", false⟩, ⟨"title", "title", false⟩, ⟨"pk", "pk", true⟩], by decide⟩]

def folderRelations : List RelationDecl := [⟨"Folder", "parent", "Folder", .foreignKey "pk", true, some "children"⟩]

def folderSchema : Schema :=
  ⟨[⟨"Folder", "folders", "id", [⟨"id", "id", false⟩, ⟨"title", "title", false⟩, ⟨"pk", "pk", true⟩]⟩],
   [⟨"parent", .foreignKey "pk", ⟨0⟩, ⟨0⟩, true, false, some "children", ⟨1⟩⟩,
    ⟨"children", .reverseForeignKey "pk", ⟨0⟩, ⟨0⟩, true, true, some "parent", ⟨0⟩⟩]⟩

/-- The children of a folder hold its key in the field `pk`, but the lookup of them is bound to their primary key. -/
theorem childRequest_misses_children :
    Schema.build folderEntities folderRelations = .ok folderSchema ∧
      folderSchema.relation ⟨1⟩ ∈ folderSchema.relations ∧
      (folderSchema.relation ⟨1⟩).keyTarget folderSchema = ⟨.root, ⟨0⟩, "pk"⟩ ∧
      (let request := childRequest folderSchema (folderSchema.relation ⟨1⟩) .empty [] [] [.int 1]
       folderSchema.bindFilters request.root request.filters =
        .ok [.cond ⟨"pk__in", .root, "id", .isIn, .many [.int 1]⟩]) ∧
      ¬ (folderSchema.relation ⟨1⟩).ReachesKey folderSchema := by
  have hbound : folderSchema.bindField ⟨0⟩ "pk__in" (Lookup.parse "pk__in").parts =
      .ok (.root, ⟨"id", "id", false⟩, ⟨0⟩) := by rfl
  refine ⟨by rfl, by decide, by rfl, by rfl, fun hreaches => ?_⟩
  obtain ⟨c, referenced, hc, hreached⟩ := hreaches.bound
  cases hc
  have hcolumn : "id" = "pk" := congrArg (fun found => found.2.1.name) (Except.ok.inj (hbound.symm.trans hreached))
  exact absurd hcolumn (by decide)

end RelQuery
