import RelQuery.Proofs.Engine.Loaded
import RelQuery.Proofs.Prefetch.Lookups

/-!
# Linking by keys

Rows of the target of a relation are linked to rows of its owner by the keys on both sides. Each row of the owner gets
just the rows that the relation links to it, in the order of their primary keys, if a statement finds all of these.
Where no linking table stands between them this takes two things: foreign keys that SQL takes for a primary key are the
same value, and no foreign key goes by the general name of primary keys, unless it is one.
-/

namespace RelQuery

open Sql

variable {sv : Server} {db : Database} {s : Schema} {rel : Relation}

/-- The key by which a relation links a row of its owner. -/
def Relation.keyOf (rel : Relation) (s : Schema) (owner : Record) : Value :=
  match rel.link with
  | .foreignKey key => owner.at_ ((s.entity rel.owner).dbName key)
  | _ => (s.entity rel.owner).key owner

theorem ownerKey_having (hs : s.WellFormed) (hrel : rel ∈ s.relations) (r : Record) (joined : List (String × Related)) :
    rel.ownerKey s (s.having rel.owner r joined) = rel.keyOf s r := by
  have hfits := hs.links rel hrel
  unfold Relation.ownerKey Relation.keyOf
  cases hlink : rel.link with
  | foreignKey key =>
    rw [hlink] at hfits
    dsimp only
    rw [get?_having hfits, Option.getD_some]
  | reverseForeignKey key => exact key_having (hs.hasField_pk (hs.owners rel hrel)) r joined
  | manyToMany through ownerKey targetKey => exact key_having (hs.hasField_pk (hs.owners rel hrel)) r joined

/-- Foreign keys that are equal to a primary key in SQL are the same value. -/
def Sql.Database.KeysAgree (db : Database) (sv : Server) (s : Schema) : Prop :=
  ∀ rel ∈ s.relations, rel.isForeignKey = true → ∀ owner ∈ db.of s rel.owner, ∀ row ∈ db.of s rel.target,
    sv.equal (rel.keyOf s owner) ((s.entity rel.target).key row) = true →
      rel.keyOf s owner = (s.entity rel.target).key row

theorem keyOf_ne_null (hdb : db.Sound sv s) (hs : s.WellFormed) (hrel : rel ∈ s.relations) {owner row : Record}
    (howner : owner ∈ db.of s rel.owner) (h : rel.Links sv db s owner row) : rel.keyOf s owner ≠ .null := by
  obtain ⟨-, h⟩ := h
  unfold Relation.keyOf
  cases hlink : rel.link with
  | foreignKey key =>
    rw [hlink] at h
    exact (Server.equal_iff.mp h).1
  | reverseForeignKey key => exact hdb.keyed _ (hs.owners rel hrel) owner howner
  | manyToMany through ownerKey targetKey => exact hdb.keyed _ (hs.owners rel hrel) owner howner

theorem mem_parentKeys (hs : s.WellFormed) (hrel : rel ∈ s.relations) {owners : List Record}
    {shown : Record → List (String × Related)} {v : Value} :
    v ∈ rel.parentKeys s (owners.map fun r => s.having rel.owner r (shown r)) ↔
      v ≠ .null ∧ ∃ r ∈ owners, rel.keyOf s r = v := by
  unfold Relation.parentKeys
  rw [mem_distinct, List.mem_filter, List.map_map, List.mem_map, Bool.not_eq_true', ← Bool.not_eq_true,
    Value.isNull_eq_true, and_comm]
  simp only [Function.comp_apply, ownerKey_having hs hrel, ne_eq]

/-- Nothing is linked to rows without keys. -/
theorem rowsOf_of_parentKeys_eq_nil (hs : s.WellFormed) (hdb : db.Sound sv s) (hrel : rel ∈ s.relations)
    {owners : List Record} (howners : owners ⊆ db.of s rel.owner)
    (hnone : rel.parentKeys s (owners.map (s.having rel.owner · [])) = []) :
    ∀ r ∈ owners, rel.rowsOf sv db s r = [] := by
  intro r hr
  refine List.eq_nil_iff_forall_not_mem.mpr fun t ht => ?_
  have hlinks := (mem_rowsOf_iff hs hdb hrel).mp ht
  have hkey : rel.keyOf s r ∈ rel.parentKeys s (owners.map (s.having rel.owner · [])) :=
    (mem_parentKeys hs hrel).mpr ⟨keyOf_ne_null hdb hs hrel (howners hr) hlinks, r, hr, rfl⟩
  rw [hnone] at hkey
  cases hkey

/-- What is linked under a key are the instances that have the key. -/
theorem filter_linkAll (rel : Relation) {found : List Instance} (h : ∀ child ∈ found, (rel.childKeys s child).Nodup)
    (v : Value) :
    ((rel.linkAll s found).filter (·.1 = v)).map (·.2) =
      (found.filter fun child => v ∈ rel.childKeys s child).map (rel.withoutOwners s) := by
  induction found with
  | nil => rfl
  | cons child rest ih =>
    obtain ⟨hchild, hrest⟩ := List.forall_mem_cons.mp h
    have hone : (((rel.childKeys s child).map fun key => (key, rel.withoutOwners s child)).filter
        fun link => decide (link.1 = v)).map (·.2) =
          if v ∈ rel.childKeys s child then [rel.withoutOwners s child] else [] := by
      have hkeys : (rel.childKeys s child).filter (fun key => decide (key = v)) =
          if v ∈ rel.childKeys s child then [v] else [] := by
        have hcount := hchild.count (a := v)
        rw [show (fun key : Value => decide (key = v)) = (· == v) from rfl, List.filter_beq, hcount]
        split <;> rfl
      rw [List.filter_map, List.map_map, show ((fun link : Value × Instance => decide (link.1 = v)) ∘
        fun key => (key, rel.withoutOwners s child)) = fun key => decide (key = v) from rfl, hkeys]
      split <;> rfl
    rw [Relation.linkAll, List.flatMap_cons, List.filter_append, List.map_append, hone, List.filter_cons]
    rw [Relation.linkAll] at ih
    rw [ih hrest]
    by_cases hv : v ∈ rel.childKeys s child
    · rw [if_pos hv, if_pos (decide_eq_true hv), List.map_cons, List.singleton_append]
    · rw [if_neg hv, if_neg (by simpa using hv), List.nil_append]

/-- What a follow-up statement finds for some rows of the owner: rows of the target, among them all that the relation
links to one of these, and linking by keys gives each row of the owner what the relation links to it. -/
structure Relation.Finds (rel : Relation) (sv : Server) (db : Database) (s : Schema) (owners rows : List Record)
    (found : List Instance) : Prop where
  rows_of : rows ⊆ db.of s rel.target
  found_eq : found.map (rel.withoutOwners s) = rows.map (s.having rel.target · [])
  linked_mem : ∀ r ∈ owners, rel.rowsOf sv db s r ⊆ rows
  linked_eq : ∀ r ∈ owners, ((rel.linkAll s found).filter (·.1 = rel.keyOf s r)).map (·.2) =
    (rel.rowsOf sv db s r).map (s.having rel.target · [])

theorem finds_of_keys (hs : s.WellFormed) (hdb : db.Sound sv s) (hrel : rel ∈ s.relations) {owners rows : List Record}
    {shown : Record → List (String × Related)} (hof : rows ⊆ db.of s rel.target) (hnodup : rows.Nodup)
    (hsorted : rows.Pairwise fun a b =>
      (sv.compare ((s.entity rel.target).key a) ((s.entity rel.target).key b)).isLE = true)
    (hplain : ∀ t, rel.withoutOwners s (s.having rel.target t (shown t)) = s.having rel.target t [])
    (hkeys : ∀ t ∈ rows, (rel.childKeys s (s.having rel.target t (shown t))).Nodup)
    (hlinks : ∀ r ∈ owners, ∀ t, rel.Links sv db s r t ↔
      t ∈ rows ∧ rel.keyOf s r ∈ rel.childKeys s (s.having rel.target t (shown t))) :
    rel.Finds sv db s owners rows (rows.map fun t => s.having rel.target t (shown t)) := by
  have hwithout : ∀ kept : List Record, (kept.map fun t => s.having rel.target t (shown t)).map (rel.withoutOwners s) =
      kept.map (s.having rel.target · []) := by
    intro kept
    rw [List.map_map]
    exact List.map_congr_left fun t _ => hplain t
  refine ⟨hof, hwithout rows, fun r hr t ht => ?_, fun r hr => ?_⟩
  · exact ((hlinks r hr t).mp ((mem_rowsOf_iff hs hdb hrel).mp ht)).1
  · have hpicked : rows.filter (fun t => decide (rel.keyOf s r ∈ rel.childKeys s (s.having rel.target t (shown t)))) =
        rel.rowsOf sv db s r := by
      refine eq_rowsOf hs hdb hrel (hnodup.filter _) (fun t => ?_) (hsorted.filter _)
      rw [List.mem_filter, decide_eq_true_iff]
      exact (hlinks r hr t).symm
    rw [filter_linkAll rel (List.forall_mem_map.mpr hkeys), List.filter_map, hwithout, ← hpicked]
    rfl

/-- No foreign key goes by the general name of primary keys, unless it is one. -/
def Schema.KeysNamed (s : Schema) : Prop :=
  ∀ rel ∈ s.relations, rel.link = .foreignKey pkAlias → (s.entity rel.owner).pk = pkAlias

/-- A relation without a linking table links by one key of each row of its target. -/
structure Relation.LinksBy (rel : Relation) (sv : Server) (db : Database) (s : Schema) (far : Record → Value) :
    Prop where
  links : ∀ owner t, rel.Links sv db s owner t ↔
    t ∈ db.of s rel.target ∧ sv.equal (rel.keyOf s owner) (far t) = true
  keys : ∀ t ∈ db.of s rel.target, rel.childKeys s (s.having rel.target t []) = [far t].filter (!·.isNull)
  place : ∀ {path entity c}, rel.KeyPlace s path entity c → path = .root ∧ ∀ t : Record, t.at_ c.dbName = far t
  agree : ∀ owner ∈ db.of s rel.owner, ∀ t ∈ db.of s rel.target,
    sv.equal (rel.keyOf s owner) (far t) = true → rel.keyOf s owner = far t

theorem linksBy_of_foreignKey (hs : s.WellFormed) (hdb : db.Sound sv s) (hagree : db.KeysAgree sv s)
    (hrel : rel ∈ s.relations) {key : String} (hlink : rel.link = .foreignKey key) :
    rel.LinksBy sv db s (s.entity rel.target).key where
  links owner t := by
    unfold Relation.Links Relation.keyOf
    rw [hlink]
  keys t ht := by
    have htarget := hs.targets rel hrel
    have hkeyed : ((s.entity rel.target).key t).isNull = false := Bool.eq_false_iff.mpr fun hnull =>
      hdb.keyed _ htarget t ht (Value.isNull_eq_true.mp hnull)
    unfold Relation.childKeys
    rw [hlink]
    dsimp only
    rw [key_having (hs.hasField_pk htarget), List.filter_singleton, hkeyed]
    rfl
  place hplace := by
    obtain ⟨-, hplace⟩ := hplace
    rw [hlink] at hplace
    obtain ⟨hpath, -, rfl⟩ := hplace
    exact ⟨hpath, fun t => rfl⟩
  agree := hagree rel hrel (by rw [Relation.isForeignKey, hlink])

theorem dbName_of_fieldColumn {e : Entity} (hpk : e.hasField e.pk = true) {field : String} {c : Column}
    (hc : e.fieldColumn? field = some c) (h : field = pkAlias → e.pk = pkAlias) : c.dbName = e.dbName field := by
  unfold Entity.fieldColumn? at hc
  split at hc
  case isTrue hfield =>
    cases hc
    rw [hfield, ← h hfield, dbName_pk hpk]
  case isFalse =>
    rw [Entity.dbName, hc]

theorem linksBy_of_reverseForeignKey (hs : s.WellFormed) (hlinked : s.Linked) (hnamed : s.KeysNamed)
    (hagree : db.KeysAgree sv s) (hrel : rel ∈ s.relations) {key : String} (hlink : rel.link = .reverseForeignKey key) :
    rel.LinksBy sv db s (fun t => t.at_ ((s.entity rel.target).dbName key)) := by
  obtain ⟨-, ⟨howner, htarget, hmirror⟩, hmem⟩ := hlinked.find_mirror hrel
  rw [hlink] at hmirror
  refine ⟨fun owner t => ?_, fun t ht => ?_, ?_, fun owner hof t ht hequal => ?_⟩
  · unfold Relation.Links Relation.keyOf
    rw [hlink]
  · have hfits := hs.links rel hrel
    rw [hlink] at hfits
    unfold Relation.childKeys
    rw [hlink]
    dsimp only
    rw [get?_having hfits, Option.getD_some]
  · rintro path entity c ⟨-, hplace⟩
    rw [hlink] at hplace
    obtain ⟨hpath, -, hc⟩ := hplace
    refine ⟨hpath, fun t => congrArg t.at_ ?_⟩
    refine dbName_of_fieldColumn (hs.hasField_pk (hs.targets rel hrel)) hc ?_
    rintro rfl
    rw [← howner]
    exact hnamed _ hmem hmirror
  · have hkey : rel.keyOf s owner = (s.entity rel.owner).key owner := by
      unfold Relation.keyOf
      rw [hlink]
    have hfar : (s.relation rel.mirror).keyOf s t = t.at_ ((s.entity rel.target).dbName key) := by
      unfold Relation.keyOf
      rw [hmirror, howner]
      rfl
    have hback := hagree _ hmem (by rw [Relation.isForeignKey, hmirror]; rfl) t (howner ▸ ht) owner (htarget ▸ hof)
    rw [hfar, htarget, ← hkey, Server.equal_symm] at hback
    exact (hback hequal).symm

theorem exists_linksBy (hs : s.WellFormed) (hlinked : s.Linked) (hnamed : s.KeysNamed) (hdb : db.Sound sv s)
    (hagree : db.KeysAgree sv s) (hrel : rel ∈ s.relations) (hone : rel.isManyToMany = false) :
    ∃ far, rel.LinksBy sv db s far := by
  cases hlink : rel.link with
  | foreignKey key => exact ⟨_, linksBy_of_foreignKey hs hdb hagree hrel hlink⟩
  | reverseForeignKey key => exact ⟨_, linksBy_of_reverseForeignKey hs hlinked hnamed hagree hrel hlink⟩
  | manyToMany through ownerKey targetKey =>
    rw [Relation.isManyToMany, hlink] at hone
    cases hone

/-- What is found through one key of each row. -/
theorem finds_of_linksBy (hs : s.WellFormed) (hdb : db.Sound sv s) (hrel : rel ∈ s.relations) {far : Record → Value}
    (hfar : rel.LinksBy sv db s far) (hone : rel.isManyToMany = false) {owners rows : List Record} {keys : List Value}
    (howners : owners ⊆ db.of s rel.owner) (hnodup : rows.Nodup)
    (hsorted : rows.Pairwise fun a b =>
      (sv.compare ((s.entity rel.target).key a) ((s.entity rel.target).key b)).isLE = true)
    (hkeys : ∀ v, v ∈ keys ↔ v ≠ .null ∧ ∃ r ∈ owners, rel.keyOf s r = v)
    (hrows : ∀ t, t ∈ rows ↔ t ∈ db.of s rel.target ∧ ∃ v ∈ keys, sv.equal (far t) v = true) :
    rel.Finds sv db s owners rows (rows.map fun t => s.having rel.target t []) := by
  have hwithout : ∀ i, rel.withoutOwners s i = i := fun i => if_neg (Bool.eq_false_iff.mp hone)
  have hof : rows ⊆ db.of s rel.target := fun t ht => ((hrows t).mp ht).1
  refine finds_of_keys hs hdb hrel hof hnodup hsorted (fun t => hwithout _) (fun t ht => ?_) fun r hr t => ?_
  · rw [hfar.keys t (hof ht)]
    exact (List.nodup_singleton _).filter _
  · rw [hfar.links, hrows]
    constructor
    · rintro ⟨ht, hequal⟩
      have hsame := hfar.agree r (howners hr) t ht hequal
      have hvalue : rel.keyOf s r ≠ .null := (Server.equal_iff.mp hequal).1
      refine ⟨⟨ht, rel.keyOf s r, (hkeys _).mpr ⟨hvalue, r, hr, rfl⟩, by rwa [Server.equal_symm]⟩, ?_⟩
      rw [hfar.keys t ht, ← hsame]
      refine List.mem_filter.mpr ⟨List.mem_singleton_self _, ?_⟩
      rwa [Bool.not_eq_true', ← Bool.not_eq_true, Value.isNull_eq_true]
    · rintro ⟨⟨ht, -⟩, hmem⟩
      rw [hfar.keys t ht] at hmem
      obtain ⟨hsame, hvalue⟩ := List.mem_filter.mp hmem
      rw [List.mem_singleton.mp hsame, Bool.not_eq_true', ← Bool.not_eq_true, Value.isNull_eq_true] at hvalue
      have hne : far t ≠ .null := hvalue
      rw [List.mem_singleton.mp hsame]
      exact ⟨ht, Server.equal_iff.mpr ⟨hne, hne, Std.ReflCmp.compare_self⟩⟩

end RelQuery
