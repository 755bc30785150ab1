import RelQuery.Proofs.Prefetch.KeyLookups

/-!
# The grammar of fields

A lookup names relations and, last, a field. Walking it stops at the first segment that is no relation of the entity
reached. Where it stops, and whether that segment names a column, decides between a field and the three faults; where
it never stops the last relation is the field. The column that stands for a field can always be joined.
-/

namespace RelQuery

variable {s : Schema} {root entity : EntityId} {lookup segment : String} {parts : List String} {i : Nat}

/-- The first of the segments that is no relation of the entity which the ones before it lead to. -/
structure Schema.StopsAt (s : Schema) (root : EntityId) (parts : List String) (i : Nat) (entity : EntityId)
    (segment : String) : Prop where
  found : parts[i]? = some segment
  walked : ∃ hops, s.walk root (parts.take i) = .ok (hops, entity)
  missing : s.findRelation? entity segment = none

def Schema.NamesColumn (s : Schema) (entity : EntityId) (segment : String) : Prop :=
  segment = pkAlias ∨ (s.entity entity).hasField segment = true

theorem Schema.StopsAt.split (h : s.StopsAt root parts i entity segment) :
    parts = parts.take i ++ segment :: parts.drop (i + 1) := by
  obtain ⟨hi, hsegment⟩ := List.getElem?_eq_some_iff.mp h.found
  rw [← hsegment, List.cons_getElem_drop_succ, List.take_append_drop]

theorem walk_or_stopsAt (s : Schema) (root : EntityId) (parts : List String) :
    (∃ hops target, s.walk root parts = .ok (hops, target)) ∨
      ∃ i entity segment, s.StopsAt root parts i entity segment := by
  induction parts generalizing root with
  | nil => exact .inl ⟨[], root, rfl⟩
  | cons name rest ih =>
    rcases hfind : s.findRelation? root name with - | id
    · exact .inr ⟨0, root, name, rfl, ⟨[], rfl⟩, hfind⟩
    · rcases ih (s.relation id).target with
        ⟨hops, target, hwalk⟩ | ⟨i, entity, segment, hfound, ⟨hops, hwalk⟩, hmissing⟩
      · exact .inl ⟨id :: hops, target, walk_cons.mpr ⟨id, hops, hfind, hwalk, rfl⟩⟩
      · exact .inr ⟨i + 1, entity, segment, hfound, ⟨id :: hops, walk_cons.mpr ⟨id, hops, hfind, hwalk, rfl⟩⟩, hmissing⟩

theorem Schema.StopsAt.walk_ne_ok (h : s.StopsAt root parts i entity segment) {hops : List RelationId}
    {target : EntityId} : s.walk root parts ≠ .ok (hops, target) := by
  intro hwalk
  rw [h.split] at hwalk
  obtain ⟨before, mid, after, hbefore, hafter, -⟩ := walk_append.mp hwalk
  obtain ⟨hops, hwalked⟩ := h.walked
  rw [hwalked] at hbefore
  cases hbefore
  obtain ⟨id, -, hid, -, -⟩ := walk_cons.mp hafter
  rw [h.missing] at hid
  cases hid

theorem Schema.StopsAt.last_iff (h : s.StopsAt root parts i entity segment) :
    i + 1 = parts.length ↔ parts.drop (i + 1) = [] := by
  have hi := (List.getElem?_eq_some_iff.mp h.found).1
  rw [List.drop_eq_nil_iff]
  omega

/-! ### What segments name -/

theorem namesColumn_iff : s.NamesColumn entity segment ↔ ∃ c, (s.entity entity).fieldColumn? segment = some c := by
  unfold Schema.NamesColumn Entity.fieldColumn?
  split
  · rename_i hpk
    exact iff_of_true (.inl hpk) ⟨_, rfl⟩
  · rename_i hpk
    rw [or_iff_right hpk]
    exact Option.isSome_iff_exists

theorem fieldColumn?_eq_none (h : ¬ s.NamesColumn entity segment) : (s.entity entity).fieldColumn? segment = none :=
  Option.eq_none_iff_forall_ne_some.mpr fun c hc => h (namesColumn_iff.mpr ⟨c, hc⟩)

/-- The field that the segment is at the entity: a relation before a column. -/
def Schema.IsFieldAt (s : Schema) (entity : EntityId) (segment : String) (field : FieldRef) : Prop :=
  match s.findRelation? entity segment with
  | some id => field = .relation id
  | none => ∃ c, (s.entity entity).fieldColumn? segment = some c ∧ field = .column c.name

/-- All segments but the last lead to the entity, and the last is the field there. -/
def FieldTarget.NamedBy (t : FieldTarget) (s : Schema) (root : EntityId) (parts : List String) : Prop :=
  ∃ last, parts = t.path.segments ++ [last] ∧ (∃ hops, s.walk root t.path.segments = .ok (hops, t.entity)) ∧
    s.IsFieldAt t.entity last t.field

/-- Where relations are all there is, the last one is the field. -/
theorem exists_namedBy_of_walk (hne : parts ≠ []) {hops : List RelationId} {target : EntityId}
    (hwalk : s.walk root parts = .ok (hops, target)) : ∃ t : FieldTarget, t.NamedBy s root parts := by
  rcases List.eq_nil_or_concat' parts with hnil | ⟨names, last, rfl⟩
  · exact absurd hnil hne
  · obtain ⟨before, entity, id, hbefore, hid, -, -⟩ := walk_concat.mp hwalk
    refine ⟨⟨⟨names⟩, entity, .relation id⟩, last, rfl, ⟨before, hbefore⟩, ?_⟩
    rw [Schema.IsFieldAt, hid]

theorem Schema.StopsAt.exists_namedBy (h : s.StopsAt root parts i entity segment) (hlast : i + 1 = parts.length)
    (hcolumn : s.NamesColumn entity segment) : ∃ t : FieldTarget, t.NamedBy s root parts := by
  obtain ⟨c, hc⟩ := namesColumn_iff.mp hcolumn
  have hsplit := h.split
  rw [h.last_iff.mp hlast] at hsplit
  refine ⟨⟨⟨parts.take i⟩, entity, .column c.name⟩, segment, hsplit, h.walked, ?_⟩
  rw [Schema.IsFieldAt, h.missing]
  exact ⟨c, hc, rfl⟩

theorem resolveFieldFrom_append {start : EntityId} {walked before rest : List String} {hops : List RelationId}
    (hwalk : s.walk start before = .ok (hops, entity)) (hrest : rest ≠ []) :
    s.resolveFieldFrom lookup parts walked start (before ++ rest) =
      s.resolveFieldFrom lookup parts (walked ++ before) entity rest := by
  induction before generalizing start walked hops with
  | nil =>
    cases hwalk
    rw [List.nil_append, List.append_nil]
  | cons name before ih =>
    obtain ⟨id, more, hid, hmore, -⟩ := walk_cons.mp hwalk
    rw [List.cons_append, Schema.resolveFieldFrom, hid]
    dsimp only
    rw [if_neg (by simp [hrest]), ih hmore, List.append_assoc, List.singleton_append]

theorem FieldTarget.NamedBy.resolveField {t : FieldTarget} (h : t.NamedBy s root parts) (lookup : String) :
    s.resolveField root lookup parts = .ok t := by
  obtain ⟨last, rfl, ⟨hops, hwalk⟩, hfield⟩ := h
  rw [Schema.resolveField, resolveFieldFrom_append hwalk (List.cons_ne_nil _ _), List.nil_append]
  obtain ⟨path, entity, field⟩ := t
  unfold Schema.IsFieldAt at hfield
  split at hfield
  · rename_i id hid
    cases hfield
    exact resolveFieldFrom_relation hid
  · rename_i hmissing
    obtain ⟨c, hc, hcolumn⟩ := hfield
    cases hcolumn
    exact resolveFieldFrom_column hmissing hc

theorem Schema.StopsAt.resolveField (h : s.StopsAt root parts i entity segment) (lookup : String) :
    s.resolveField root lookup parts =
      s.resolveFieldFrom lookup parts (parts.take i) entity (segment :: parts.drop (i + 1)) := by
  obtain ⟨hops, hwalk⟩ := h.walked
  have happend : s.resolveFieldFrom lookup parts [] root (parts.take i ++ segment :: parts.drop (i + 1)) =
      s.resolveFieldFrom lookup parts ([] ++ parts.take i) entity (segment :: parts.drop (i + 1)) :=
    resolveFieldFrom_append hwalk (List.cons_ne_nil _ _)
  rwa [← h.split, List.nil_append] at happend

theorem unknownField_of_stopsAt (h : s.StopsAt root parts i entity segment) (hlast : i + 1 = parts.length)
    (hcolumn : ¬ s.NamesColumn entity segment) :
    s.resolveField root lookup parts = .error (.unknownField (s.entity entity).name segment) := by
  rw [h.resolveField, Schema.resolveFieldFrom, h.missing]
  dsimp only
  rw [fieldColumn?_eq_none hcolumn]
  exact if_pos (List.isEmpty_iff.mpr (h.last_iff.mp hlast))

theorem unknownRelation_of_stopsAt (h : s.StopsAt root parts i entity segment) (hmore : i + 1 ≠ parts.length)
    (hcolumn : ¬ s.NamesColumn entity segment) :
    s.resolveField root lookup parts = .error (.unknownRelation (joinSegments parts) segment) := by
  rw [h.resolveField, Schema.resolveFieldFrom, h.missing]
  dsimp only
  rw [fieldColumn?_eq_none hcolumn]
  exact if_neg fun hempty => hmore (h.last_iff.mpr (List.isEmpty_iff.mp hempty))

theorem unknownOperator_of_stopsAt (h : s.StopsAt root parts i entity segment) (hmore : i + 1 ≠ parts.length)
    (hcolumn : s.NamesColumn entity segment) :
    s.resolveField root lookup parts = .error (.unknownOperator lookup (joinSegments (parts.drop (i + 1)))) := by
  obtain ⟨c, hc⟩ := namesColumn_iff.mp hcolumn
  rw [h.resolveField, Schema.resolveFieldFrom, h.missing]
  dsimp only
  rw [hc]
  exact if_neg fun hempty => hmore (h.last_iff.mpr (List.isEmpty_iff.mp hempty))

theorem Schema.StopsAt.of_resolveField (h : s.StopsAt root parts i entity segment) {t : FieldTarget}
    (hok : s.resolveField root lookup parts = .ok t) : i + 1 = parts.length ∧ s.NamesColumn entity segment := by
  by_cases hlast : i + 1 = parts.length <;> by_cases hcolumn : s.NamesColumn entity segment
  · exact ⟨hlast, hcolumn⟩
  · rw [unknownField_of_stopsAt h hlast hcolumn] at hok
    cases hok
  · rw [unknownOperator_of_stopsAt h hlast hcolumn] at hok
    cases hok
  · rw [unknownRelation_of_stopsAt h hlast hcolumn] at hok
    cases hok

/-! ### Fields -/

/-- The segments name a field: relations up to a last relation, or up to a last segment that is a column. -/
def Schema.NamesField (s : Schema) (root : EntityId) (parts : List String) : Prop :=
  parts ≠ [] ∧ ((∀ i entity segment, ¬ s.StopsAt root parts i entity segment) ∨
    ∃ i entity segment, s.StopsAt root parts i entity segment ∧ i + 1 = parts.length ∧ s.NamesColumn entity segment)

theorem Schema.NamesField.exists_namedBy (h : s.NamesField root parts) :
    ∃ t : FieldTarget, t.NamedBy s root parts := by
  obtain ⟨hne, hnone | ⟨i, entity, segment, hstop, hlast, hcolumn⟩⟩ := h
  · rcases walk_or_stopsAt s root parts with ⟨hops, target, hwalk⟩ | ⟨i, entity, segment, hstop⟩
    · exact exists_namedBy_of_walk hne hwalk
    · exact absurd hstop (hnone i entity segment)
  · exact hstop.exists_namedBy hlast hcolumn

theorem namesField_of_resolveField {t : FieldTarget} (h : s.resolveField root lookup parts = .ok t) :
    s.NamesField root parts := by
  constructor
  · rintro rfl
    cases h
  · rcases walk_or_stopsAt s root parts with ⟨hops, target, hwalk⟩ | ⟨i, entity, segment, hstop⟩
    · exact .inl fun i entity segment hstop => hstop.walk_ne_ok hwalk
    · exact .inr ⟨i, entity, segment, hstop, hstop.of_resolveField h⟩

theorem exists_resolveField_iff : (∃ t, s.resolveField root lookup parts = .ok t) ↔ s.NamesField root parts := by
  constructor
  · rintro ⟨t, ht⟩
    exact namesField_of_resolveField ht
  · intro h
    obtain ⟨t, ht⟩ := h.exists_namedBy
    exact ⟨t, ht.resolveField lookup⟩

theorem namedBy_of_resolveField {t : FieldTarget} (h : s.resolveField root lookup parts = .ok t) :
    t.NamedBy s root parts := by
  obtain ⟨t', ht'⟩ := (namesField_of_resolveField h).exists_namedBy
  rw [ht'.resolveField] at h
  cases h
  exact ht'

theorem lt_of_walk (hs : s.WellFormed) (hroot : root.index < s.entities.length) {names : List String}
    {hops : List RelationId} (h : s.walk root names = .ok (hops, entity)) : entity.index < s.entities.length := by
  rcases List.eq_nil_or_concat' names with rfl | ⟨before, last, rfl⟩
  · cases h
    exact hroot
  · obtain ⟨_, _, id, -, hid, -, rfl⟩ := walk_concat.mp h
    exact hs.targets _ (relation_of_findRelation? hid).1

/-- The field is a relation that no column of its owner holds. -/
def FieldTarget.isToMany (t : FieldTarget) (s : Schema) : Bool :=
  match t.field with
  | .column _ => false
  | .relation id => (s.relation id).isToMany

/-- The column that stands for the field can be joined: no further than the field was walked, but for a relation that
leads to many, which is joined as well. -/
structure FieldTarget.Joinable (t : FieldTarget) (s : Schema) (root : EntityId) (parts : List String) : Prop where
  walked : t.path = ⟨parts.dropLast⟩
  path : (t.columnTarget s).path = if t.isToMany s then ⟨parts⟩ else t.path
  resolves : ∃ r, s.resolve root (t.columnTarget s).path = .ok r ∧ r.target = (t.columnTarget s).entity
  column : (s.entity (t.columnTarget s).entity).hasField (t.columnTarget s).column = true

theorem FieldTarget.NamedBy.path_columnTarget {t : FieldTarget} (h : t.NamedBy s root parts) :
    (t.columnTarget s).path = if t.isToMany s then ⟨parts⟩ else t.path := by
  obtain ⟨last, rfl, -, hfield⟩ := h
  unfold Schema.IsFieldAt at hfield
  split at hfield
  · rename_i id hid
    rw [FieldTarget.columnTarget, FieldTarget.isToMany, hfield]
    dsimp only
    split
    · rename_i key hlink
      simp [Relation.isToMany, Relation.isForeignKey, hlink]
    · rename_i hother
      have hmany : (s.relation id).isForeignKey = false := by
        unfold Relation.isForeignKey
        split
        · exact absurd ‹_› (hother _)
        · rfl
      simp [Relation.isToMany, hmany, Path.child, (relation_of_findRelation? hid).2.2]
  · obtain ⟨c, -, hcolumn⟩ := hfield
    rw [FieldTarget.columnTarget, FieldTarget.isToMany, hcolumn]
    rfl

theorem FieldTarget.NamedBy.hasField_columnTarget {t : FieldTarget} (hs : s.WellFormed)
    (hroot : root.index < s.entities.length) (h : t.NamedBy s root parts) :
    (s.entity (t.columnTarget s).entity).hasField (t.columnTarget s).column = true := by
  obtain ⟨last, -, ⟨hops, hwalk⟩, hfield⟩ := h
  unfold Schema.IsFieldAt at hfield
  split at hfield
  · rename_i id hid
    obtain ⟨hmem, howner, -⟩ := relation_of_findRelation? hid
    have hfits := hs.links _ hmem
    rw [FieldTarget.columnTarget, hfield]
    dsimp only
    split
    · rename_i key hlink
      rw [hlink, howner] at hfits
      exact hfits
    · exact hs.hasField_pk (hs.targets _ hmem)
  · obtain ⟨c, hc, hcolumn⟩ := hfield
    rw [FieldTarget.columnTarget, hcolumn]
    exact Option.isSome_iff_exists.mpr ⟨c, column?_fieldColumn (hs.hasField_pk (lt_of_walk hs hroot hwalk)) hc⟩

theorem joinable_of_resolveField (hs : s.WellFormed) (hroot : root.index < s.entities.length) {t : FieldTarget}
    (h : s.resolveField root lookup parts = .ok t) : t.Joinable s root parts := by
  have hnamed := namedBy_of_resolveField h
  obtain ⟨hops, hwalk⟩ := walks_columnTarget (resolves_of_resolveFieldFrom ⟨[], rfl⟩ h)
  have hpath := path_of_resolveFieldFrom h
  exact ⟨congrArg Path.mk hpath, hnamed.path_columnTarget,
    ⟨⟨_, hops, _⟩, resolve_eq_ok.mpr ⟨rfl, hwalk⟩, rfl⟩, hnamed.hasField_columnTarget hs hroot⟩

/-- What is answered to the segments of a lookup. -/
structure Schema.FieldGrammar (s : Schema) (root : EntityId) (lookup : String) (parts : List String)
    (answer : Except QueryError FieldTarget) : Prop where
  accepted : (∃ t, answer = .ok t) ↔ s.NamesField root parts
  field : ∀ t, answer = .ok t → t.NamedBy s root parts ∧ t.Joinable s root parts
  unknownField : ∀ i entity segment, s.StopsAt root parts i entity segment → i + 1 = parts.length →
    ¬ s.NamesColumn entity segment → answer = .error (.unknownField (s.entity entity).name segment)
  unknownOperator : ∀ i entity segment, s.StopsAt root parts i entity segment → i + 1 ≠ parts.length →
    s.NamesColumn entity segment → answer = .error (.unknownOperator lookup (joinSegments (parts.drop (i + 1))))
  unknownRelation : ∀ i entity segment, s.StopsAt root parts i entity segment → i + 1 ≠ parts.length →
    ¬ s.NamesColumn entity segment → answer = .error (.unknownRelation (joinSegments parts) segment)
  /-- Without segments there is none to blame; the lookup itself is reported. -/
  nothing : parts = [] → answer = .error (.unknownField (s.entity root).name lookup)

/-- Resolving a field of a built schema accepts what the grammar says, and reports the fault where walking stops. -/
theorem resolveField_grammar {entities : List EntityDecl} {relations : List RelationDecl}
    (hs : Schema.build entities relations = .ok s) (hroot : root.index < s.entities.length) (lookup : String)
    (parts : List String) : s.FieldGrammar root lookup parts (s.resolveField root lookup parts) where
  accepted := exists_resolveField_iff
  field _ h := ⟨namedBy_of_resolveField h, joinable_of_resolveField (wellFormed_build hs) hroot h⟩
  unknownField _ _ _ h := unknownField_of_stopsAt h
  unknownOperator _ _ _ h := unknownOperator_of_stopsAt h
  unknownRelation _ _ _ h := unknownRelation_of_stopsAt h
  nothing := by
    rintro rfl
    rfl

theorem resolveField_grammar_tagged :
    Schema.build taggedEntities taggedRelations = .ok taggedSchema ∧
      (⟨1⟩ : EntityId).index < taggedSchema.entities.length ∧
      taggedSchema.NamesField ⟨1⟩ ["books", "tags"] ∧
      (∃ t, taggedSchema.resolveField ⟨1⟩ "books__tags" ["books", "tags"] = .ok t ∧
        (t.columnTarget taggedSchema).path = ⟨["books", "tags"]⟩) ∧
      taggedSchema.resolveField ⟨1⟩ "books__title__like__x" ["books", "title", "like", "x"] =
        .error (.unknownOperator "books__title__like__x" "like__x") := by
  have hbuild : Schema.build taggedEntities taggedRelations = .ok taggedSchema := by rfl
  have hroot : (⟨1⟩ : EntityId).index < taggedSchema.entities.length := by decide
  have hfield : taggedSchema.resolveField ⟨1⟩ "books__tags" ["books", "tags"] =
      .ok ⟨⟨["books"]⟩, ⟨0⟩, .relation ⟨0⟩⟩ := by rfl
  have hrelations := resolveField_grammar hbuild hroot "books__tags" ["books", "tags"]
  have hoperator := resolveField_grammar hbuild hroot "books__title__like__x" ["books", "title", "like", "x"]
  exact ⟨hbuild, hroot, hrelations.accepted.mp ⟨_, hfield⟩, ⟨_, hfield, (hrelations.field _ hfield).2.path⟩,
    hoperator.unknownOperator 1 ⟨0⟩ "title" ⟨by rfl, ⟨_, by rfl⟩, by rfl⟩ (by decide) (.inr (by decide))⟩

end RelQuery
