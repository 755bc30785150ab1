import RelQuery.Proofs.Plan.Order
import RelQuery.Proofs.Schema.Mirror

/-!
# Linked rows

Which rows a relation links to a row of its owner, told by the values of keys. Following the relation finds just these,
a linked row once for each row of a linking table, or a row of nulls where there is none. A mirror links the same rows
the other way round.
-/

namespace RelQuery

open Sql

variable {sv : Server} {db : Database} {s : Schema}

/-- The row is one of the target of the relation, and the relation links it to the row of its owner. -/
def Relation.Links (rel : Relation) (sv : Server) (db : Database) (s : Schema) (owner row : Record) : Prop :=
  row ∈ db.of s rel.target ∧
    match rel.link with
    | .foreignKey key =>
      sv.equal (owner.at_ ((s.entity rel.owner).dbName key)) ((s.entity rel.target).key row) = true
    | .reverseForeignKey key =>
      sv.equal ((s.entity rel.owner).key owner) (row.at_ ((s.entity rel.target).dbName key)) = true
    | .manyToMany through ownerKey targetKey =>
      ∃ m ∈ db.of s through,
        sv.equal ((s.entity rel.owner).key owner) (m.at_ ((s.entity through).dbName ownerKey)) = true ∧
          sv.equal (m.at_ ((s.entity through).dbName targetKey)) ((s.entity rel.target).key row) = true

theorem lt_of_hasField {id : EntityId} {field : String} (h : (s.entity id).hasField field = true) :
    id.index < s.entities.length := by
  by_contra hge
  have hnone : s.entity id = default := by
    rw [Schema.entity, List.getElem?_eq_none (Nat.le_of_not_lt hge), Option.getD_none]
  rw [hnone] at h
  cases h

theorem mem_linked_iff (hs : s.WellFormed) (hdb : db.Sound sv s) {id : EntityId} (hid : id.index < s.entities.length)
    {value : Value} {column : String} {row : Record} :
    row ∈ db.linked sv s id value column ∧ (s.entity id).key row ≠ .null ↔
      row ∈ db.of s id ∧ sv.equal value (row.at_ column) = true := by
  unfold Database.linked Entity.orNulls
  constructor
  · rintro ⟨hrow, hkey⟩
    split at hrow
    · rw [List.mem_singleton.mp hrow] at hkey
      exact absurd (key_nulls hs hid) hkey
    · exact List.mem_filter.mp hrow
  · rintro ⟨hrow, hequal⟩
    have hmem : row ∈ (db.of s id).filter fun r => sv.equal value (r.at_ column) := List.mem_filter.mpr ⟨hrow, hequal⟩
    refine ⟨?_, hdb.keyed id hid row hrow⟩
    rwa [if_neg fun he => List.ne_nil_of_mem hmem (List.isEmpty_iff.mp he)]

/-- A row of nulls is linked to nothing. -/
theorem equal_nulls {e : Entity} {column : String} (hcolumn : column ∈ e.columns.map (·.dbName)) (v : Value) :
    sv.equal (Record.at_ (e.record []) column) v = false := by
  rw [Entity.record_at hcolumn]
  exact Bool.eq_false_iff.mpr fun h => (Server.equal_iff.mp h).1 rfl

theorem mem_follow_iff (hs : s.WellFormed) (hdb : db.Sound sv s) {rel : Relation} (hrel : rel ∈ s.relations)
    {owner row : Record} :
    row ∈ rel.follow sv db s owner ∧ (s.entity rel.target).key row ≠ .null ↔ rel.Links sv db s owner row := by
  have htarget := hs.targets rel hrel
  have hfits := hs.links rel hrel
  unfold Relation.follow Relation.Links
  cases hlink : rel.link with
  | foreignKey key => exact mem_linked_iff hs hdb htarget
  | reverseForeignKey key => exact mem_linked_iff hs hdb htarget
  | manyToMany through ownerKey targetKey =>
    rw [hlink] at hfits
    dsimp only
    have hthrough := lt_of_hasField hfits.1
    constructor
    · rintro ⟨hrow, hkey⟩
      obtain ⟨m, hm, hrow⟩ := List.mem_flatMap.mp hrow
      obtain ⟨hmem, hequal⟩ := (mem_linked_iff hs hdb htarget).mp ⟨hrow, hkey⟩
      have hmkey : (s.entity through).key m ≠ .null := by
        rcases mem_linked hm with hof | rfl
        · exact hdb.keyed through hthrough m hof
        · rw [equal_nulls (dbName_mem hfits.2)] at hequal
          cases hequal
      obtain ⟨hof, hmequal⟩ := (mem_linked_iff hs hdb hthrough).mp ⟨hm, hmkey⟩
      exact ⟨hmem, m, hof, hmequal, hequal⟩
    · rintro ⟨hmem, m, hof, hmequal, hequal⟩
      obtain ⟨hrow, hkey⟩ := (mem_linked_iff hs hdb htarget).mpr ⟨hmem, hequal⟩
      exact ⟨List.mem_flatMap.mpr ⟨m, ((mem_linked_iff hs hdb hthrough).mpr ⟨hof, hmequal⟩).1, hrow⟩, hkey⟩

/-- A foreign key leads to one row, or to one of nulls. -/
theorem eq_of_mem_follow (hdb : db.Sound sv s) {rel : Relation} (htarget : rel.target.index < s.entities.length)
    (hkey : rel.isForeignKey = true) {owner a b : Record} (ha : a ∈ rel.follow sv db s owner)
    (hb : b ∈ rel.follow sv db s owner) : a = b := by
  unfold Relation.isForeignKey at hkey
  unfold Relation.follow Database.linked Entity.orNulls at ha hb
  split at hkey
  · rename_i key hlink
    rw [hlink] at ha hb
    dsimp only at ha hb
    split at ha
    · rename_i hempty
      rw [if_pos hempty] at hb
      rw [List.mem_singleton.mp ha, List.mem_singleton.mp hb]
    · rename_i hempty
      rw [if_neg hempty] at hb
      obtain ⟨hofa, hequala⟩ := List.mem_filter.mp ha
      obtain ⟨hofb, hequalb⟩ := List.mem_filter.mp hb
      refine eq_of_key hdb.keys htarget hofa hofb ?_
      exact Std.TransCmp.eq_trans (Std.OrientedCmp.eq_symm (Server.equal_iff.mp hequala).2.2)
        (Server.equal_iff.mp hequalb).2.2
  · cases hkey

theorem Sql.Server.equal_symm {a b : Value} : sv.equal a b = sv.equal b a := by
  rw [Bool.eq_iff_iff, Server.equal_iff, Server.equal_iff]
  constructor <;> exact fun ⟨ha, hb, he⟩ => ⟨hb, ha, Std.OrientedCmp.eq_symm he⟩

/-- A mirror links the same rows the other way round. -/
theorem Relation.IsMirrorOf.links_iff {m rel : Relation} (h : m.IsMirrorOf rel) {owner row : Record}
    (howner : owner ∈ db.of s rel.owner) (hrow : row ∈ db.of s rel.target) :
    m.Links sv db s row owner ↔ rel.Links sv db s owner row := by
  unfold Relation.Links
  rw [h.owner, h.target, h.link]
  cases rel.link with
  | foreignKey key => simp [Link.mirror, howner, hrow, Server.equal_symm (a := (s.entity rel.target).key row)]
  | reverseForeignKey key => simp [Link.mirror, howner, hrow, Server.equal_symm (b := (s.entity rel.owner).key owner)]
  | manyToMany through ownerKey targetKey =>
    simp only [Link.mirror, howner, hrow, true_and]
    refine exists_congr fun m => and_congr_right fun _ => ?_
    rw [Server.equal_symm (a := (s.entity rel.target).key row), Server.equal_symm (b := (s.entity rel.owner).key owner),
      and_comm]

/-- Rows of the entity in the order of their primary keys. -/
def Entity.byKey (e : Entity) (sv : Server) (rows : List Record) : List Record :=
  rows.insertionSort fun a b => (sv.compare (e.key a) (e.key b)).isLE = true

theorem perm_byKey (e : Entity) (sv : Server) (rows : List Record) : (e.byKey sv rows).Perm rows :=
  rows.perm_insertionSort _

theorem pairwise_byKey (e : Entity) (sv : Server) (rows : List Record) :
    (e.byKey sv rows).Pairwise fun a b => (sv.compare (e.key a) (e.key b)).isLE = true := by
  let le : Record → Record → Prop := fun a b => (sv.compare (e.key a) (e.key b)).isLE = true
  have htotal : Std.Total le := ⟨fun a b => by
    have hswap : sv.compare (e.key b) (e.key a) = (sv.compare (e.key a) (e.key b)).swap := Std.OrientedCmp.eq_swap
    change (sv.compare (e.key a) (e.key b)).isLE = true ∨ (sv.compare (e.key b) (e.key a)).isLE = true
    rw [hswap]
    cases sv.compare (e.key a) (e.key b) <;> simp⟩
  have htrans : IsTrans Record le := ⟨fun _ _ _ => Std.TransCmp.isLE_trans⟩
  exact rows.pairwise_insertionSort le

/-- Rows of an entity in the order of primary keys come in one order only. -/
theorem eq_of_sorted (hdb : db.Sound sv s) {id : EntityId} (hid : id.index < s.entities.length) {l m : List Record}
    (hof : ∀ r ∈ m, r ∈ db.of s id) (hl : l.Nodup) (hm : m.Nodup) (hmem : ∀ r, r ∈ l ↔ r ∈ m)
    (hsorted : l.Pairwise fun a b => (sv.compare ((s.entity id).key a) ((s.entity id).key b)).isLE = true)
    (hsorted' : m.Pairwise fun a b => (sv.compare ((s.entity id).key a) ((s.entity id).key b)).isLE = true) : l = m := by
  have hperm : l.Perm m := (List.perm_ext_iff_of_nodup hl hm).mpr hmem
  refine hperm.eq_of_pairwise (fun a b ha hb hab hba => ?_) hsorted hsorted'
  exact eq_of_key hdb.keys hid (hof a ((hmem a).mp ha)) (hof b hb) (Std.OrientedCmp.isLE_antisymm hab hba)

/-- The rows that a relation links to a row, each once, in the order of primary keys. -/
def Relation.rowsOf (rel : Relation) (sv : Server) (db : Database) (s : Schema) (owner : Record) : List Record :=
  (s.entity rel.target).byKey sv
    (distinct ((rel.follow sv db s owner).filter fun row => !((s.entity rel.target).key row).isNull))

theorem mem_rowsOf_iff (hs : s.WellFormed) (hdb : db.Sound sv s) {rel : Relation} (hrel : rel ∈ s.relations)
    {owner row : Record} : row ∈ rel.rowsOf sv db s owner ↔ rel.Links sv db s owner row := by
  rw [Relation.rowsOf, (perm_byKey _ _ _).mem_iff, mem_distinct, List.mem_filter, ← mem_follow_iff hs hdb hrel,
    Bool.not_eq_true', ← Bool.not_eq_true, Value.isNull_eq_true]

theorem nodup_rowsOf (rel : Relation) (sv : Server) (db : Database) (s : Schema) (owner : Record) :
    (rel.rowsOf sv db s owner).Nodup :=
  (perm_byKey _ _ _).nodup_iff.mpr (distinct_nodup _)

/-- Linked rows in the order of primary keys are what the relation leads to. -/
theorem eq_rowsOf (hs : s.WellFormed) (hdb : db.Sound sv s) {rel : Relation} (hrel : rel ∈ s.relations)
    {owner : Record} {l : List Record} (hl : l.Nodup) (hmem : ∀ row, row ∈ l ↔ rel.Links sv db s owner row)
    (hsorted : l.Pairwise fun a b =>
      (sv.compare ((s.entity rel.target).key a) ((s.entity rel.target).key b)).isLE = true) :
    l = rel.rowsOf sv db s owner := by
  refine eq_of_sorted hdb (hs.targets rel hrel) (fun r hr => ((mem_rowsOf_iff hs hdb hrel).mp hr).1) hl
    (nodup_rowsOf rel sv db s owner) (fun r => (hmem r).trans (mem_rowsOf_iff hs hdb hrel).symm) hsorted ?_
  exact pairwise_byKey _ _ _

end RelQuery
