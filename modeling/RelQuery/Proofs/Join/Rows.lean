import Mathlib.Logic.Function.Basic
import RelQuery.Proofs.Join.Scope
import RelQuery.Proofs.Sql.Semantics

/-!
# Joined rows

What joining paths to the rows of a root entity gives, told without statements and aliases: a joined row has a row of
the root entity, and a row of the entity at every joined path that is linked to the one at the path before it, or a row
of nulls where there is none.
-/

namespace RelQuery

open Sql

/-- A row as one of an entity: the values of its columns. -/
def Entity.record (e : Entity) (r : Record) : Record := e.columns.map fun c => (c.dbName, r.at_ c.dbName)

/-- The primary key of a row. -/
def Entity.key (e : Entity) (r : Record) : Value := r.at_ e.pkColumn.dbName

/-- The rows of an entity. -/
def Sql.Database.of (db : Database) (s : Schema) (id : EntityId) : List Record :=
  (db.rows (s.entity id).table).map (s.entity id).record

/-- Primary keys are unique and not null, and columns that are said not to be null are not. -/
structure Sql.Database.Sound (db : Database) (sv : Server) (s : Schema) : Prop where
  unique : ∀ id : EntityId, id.index < s.entities.length →
    ((db.of s id).map (s.entity id).key).Pairwise fun a b => sv.compare a b ≠ .eq
  keyed : ∀ id : EntityId, id.index < s.entities.length → ∀ r ∈ db.of s id, (s.entity id).key r ≠ .null
  required : ∀ id : EntityId, id.index < s.entities.length → ∀ r ∈ db.of s id, ∀ c ∈ (s.entity id).columns,
    c.nullable = false → r.at_ c.dbName ≠ .null

/-- Primary keys are unique and not null. -/
structure Sql.Database.Keyed (db : Database) (sv : Server) (s : Schema) : Prop where
  unique : ∀ id : EntityId, id.index < s.entities.length →
    ((db.of s id).map (s.entity id).key).Pairwise fun a b => sv.compare a b ≠ .eq
  keyed : ∀ id : EntityId, id.index < s.entities.length → ∀ r ∈ db.of s id, (s.entity id).key r ≠ .null

theorem Sql.Database.Sound.keys {db : Database} {sv : Server} {s : Schema} (h : db.Sound sv s) : db.Keyed sv s :=
  ⟨h.unique, h.keyed⟩

/-- Whether a database is sound can be checked entity by entity. -/
theorem Sql.Database.Sound.of_entities {db : Database} {sv : Server} {s : Schema}
    (h : ∀ i < s.entities.length,
      ((db.of s ⟨i⟩).map (s.entity ⟨i⟩).key).Pairwise (fun a b => sv.compare a b ≠ .eq) ∧
        ∀ r ∈ db.of s ⟨i⟩, (s.entity ⟨i⟩).key r ≠ .null ∧
          ∀ c ∈ (s.entity ⟨i⟩).columns, c.nullable = false → r.at_ c.dbName ≠ .null) : db.Sound sv s where
  unique id hid := (h id.index hid).1
  keyed id hid r hr := ((h id.index hid).2 r hr).1
  required id hid r hr := ((h id.index hid).2 r hr).2

theorem Entity.record_at {e : Entity} {column : String} (h : column ∈ e.columns.map (·.dbName)) (r : Record) :
    (e.record r).at_ column = r.at_ column := by
  unfold Entity.record
  revert h
  generalize e.columns = columns
  intro h
  induction columns with
  | nil => cases h
  | cons c rest ih =>
    rw [List.map_cons, Record.at_, NameMap.get?_cons]
    by_cases hc : c.dbName = column
    · rw [if_pos hc, hc]
      rfl
    · rw [if_neg hc]
      refine ih ?_
      rcases List.mem_cons.mp h with he | hrest
      · exact absurd he.symm hc
      · exact hrest

theorem Entity.record_congr {e : Entity} {r t : Record} (h : ∀ column ∈ e.columns.map (·.dbName), r.at_ column = t.at_ column) :
    e.record r = e.record t := by
  unfold Entity.record
  refine List.map_congr_left fun c hc => ?_
  rw [h c.dbName (List.mem_map_of_mem hc)]

theorem Entity.record_record (e : Entity) (r : Record) : e.record (e.record r) = e.record r :=
  Entity.record_congr fun _ hcolumn => Entity.record_at hcolumn r

/-- Whether the comparison of two values for equality is true. -/
def Sql.Server.equal (sv : Server) (a b : Value) : Bool := sv.binary .eq a b == some true

theorem Sql.Server.equal_iff {sv : Server} {a b : Value} :
    sv.equal a b = true ↔ a ≠ .null ∧ b ≠ .null ∧ sv.compare a b = .eq := by
  unfold Server.equal Server.binary
  cases ha : a.isNull <;> cases hb : b.isNull <;> cases hc : sv.compare a b <;>
    simp [BinaryOp.holds, ← Value.isNull_eq_true, ha, hb]

/-- Rows of an entity, or one of nulls if there is none. -/
def Entity.orNulls (e : Entity) (rows : List Record) : List Record := if rows.isEmpty then [e.record []] else rows

/-- The rows of an entity that have a value in a column, or one of nulls if there is none. -/
def Sql.Database.linked (db : Database) (sv : Server) (s : Schema) (id : EntityId) (value : Value) (column : String) :
    List Record :=
  (s.entity id).orNulls ((db.of s id).filter fun r => sv.equal value (r.at_ column))

/-- The rows that a relation leads to from a row of its owner, or one of nulls. Each row of a linking table counts. -/
def Relation.follow (rel : Relation) (sv : Server) (db : Database) (s : Schema) (r : Record) : List Record :=
  let owner := s.entity rel.owner
  let far := s.entity rel.target
  match rel.link with
  | .foreignKey key => db.linked sv s rel.target (r.at_ (owner.dbName key)) far.pkColumn.dbName
  | .reverseForeignKey key => db.linked sv s rel.target (owner.key r) (far.dbName key)
  | .manyToMany throughId ownerKey targetKey =>
    let middle := s.entity throughId
    (db.linked sv s throughId (owner.key r) (middle.dbName ownerKey)).flatMap fun m =>
      db.linked sv s rel.target (m.at_ (middle.dbName targetKey)) far.pkColumn.dbName

theorem Entity.orNulls_ne_nil (e : Entity) (rows : List Record) : e.orNulls rows ≠ [] := by
  unfold Entity.orNulls
  cases rows <;> simp

theorem follow_ne_nil (rel : Relation) (sv : Server) (db : Database) (s : Schema) (r : Record) :
    rel.follow sv db s r ≠ [] := by
  unfold Relation.follow
  dsimp only
  split
  · exact Entity.orNulls_ne_nil _ _
  · exact Entity.orNulls_ne_nil _ _
  · obtain ⟨m, more, hm⟩ := List.exists_cons_of_ne_nil (Entity.orNulls_ne_nil _ _)
    rw [Database.linked, hm, List.flatMap_cons]
    exact List.append_ne_nil_of_left_ne_nil (Entity.orNulls_ne_nil _ _) _

/-- A row of the root entity with one at every joined path. -/
abbrev Joined := Path → Record

def Joined.value (row : Joined) (path : Path) (column : String) : Value := (row path).at_ column

/-- A row of the root entity with nothing joined. -/
def Joined.start (r : Record) : Joined := fun path => if path = .root then r else []

def ResolvedPath.relation (s : Schema) (r : ResolvedPath) : Relation := s.relation (r.lastHop?.getD default)

def ResolvedPath.parent (r : ResolvedPath) : Path := ⟨r.path.segments.dropLast⟩

/-- Joins paths, one after the other, to a joined row. -/
def joinPaths (sv : Server) (db : Database) (s : Schema) : List ResolvedPath → Joined → List Joined
  | [], row => [row]
  | r :: rest, row =>
    ((r.relation s).follow sv db s (row r.parent)).flatMap fun found =>
      joinPaths sv db s rest (Function.update row r.path found)

/-- All joined rows of a prepared request. -/
def Prepared.joinedRows (p : Prepared) (sv : Server) (db : Database) : List Joined :=
  (db.of p.schema p.request.root).flatMap fun r => joinPaths sv db p.schema p.bound.resolved (.start r)

theorem joinPaths_ne_nil (sv : Server) (db : Database) (s : Schema) (paths : List ResolvedPath) (row : Joined) :
    joinPaths sv db s paths row ≠ [] := by
  induction paths generalizing row with
  | nil => simp [joinPaths]
  | cons r rest ih =>
    obtain ⟨found, more, hfound⟩ := List.exists_cons_of_ne_nil (follow_ne_nil (r.relation s) sv db s (row r.parent))
    rw [joinPaths, hfound, List.flatMap_cons]
    exact List.append_ne_nil_of_left_ne_nil (ih _) _

theorem joinPaths_of_not_mem {sv : Server} {db : Database} {s : Schema} {paths : List ResolvedPath} {row row' : Joined}
    (h : row' ∈ joinPaths sv db s paths row) {path : Path} (hpath : path ∉ paths.map (·.path)) : row' path = row path := by
  induction paths generalizing row with
  | nil => rw [List.mem_singleton.mp h]
  | cons r rest ih =>
    obtain ⟨found, -, hrow⟩ := List.mem_flatMap.mp h
    rw [List.map_cons, List.mem_cons, not_or] at hpath
    rw [ih hrow hpath.2, Function.update_of_ne hpath.1]

end RelQuery
