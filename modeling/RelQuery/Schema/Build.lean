import RelQuery.Schema
import RelQuery.Text.Case

/-!
# Building a schema

Entities and relations are declared by name. A relation may lead to its own entity or to one declared later. Building
resolves the names and adds the mirror of every declared relation.
-/

namespace RelQuery

/-- A declared entity. The primary key, once there is one, is a column. -/
structure EntityDecl where
  name : String
  table : String
  pk : Option String := none
  columns : List Column := []
  pk_isColumn : ∀ field, pk = some field → columns.any (·.name == field) = true := by simp

namespace EntityDecl

/-- Makes a field the primary key. A field that is no column yet becomes the first one. -/
def withPk (d : EntityDecl) (field : String) : EntityDecl where
  name := d.name
  table := d.table
  pk := some field
  columns := if d.columns.any (·.name == field) then d.columns else ⟨field, field, false⟩ :: d.columns
  pk_isColumn := by
    intro f hf
    cases hf
    split <;> simp_all

def withColumn (d : EntityDecl) (column : Column) : EntityDecl where
  name := d.name
  table := d.table
  pk := d.pk
  columns := d.columns ++ [column]
  pk_isColumn := by
    intro f hf
    rw [List.any_append, d.pk_isColumn f hf, Bool.true_or]

end EntityDecl

inductive LinkDecl where
  | foreignKey (key : String)
  | manyToMany (through ownerKey targetKey : String)

structure RelationDecl where
  owner : String
  name : String
  target : String
  link : LinkDecl
  nullable : Bool := true
  relatedName : Option String := none

namespace Schema

/-- Adds a declared entity. Its name must be new, and it must have a primary key. -/
def addEntity (s : Schema) (d : EntityDecl) : Except SchemaError Schema :=
  if (s.findEntity? d.name).isSome then .error (.duplicateEntity d.name)
  else
    match d.pk with
    | none => .error (.missingPrimaryKey d.name)
    | some pk => .ok { s with entities := s.entities ++ [⟨d.name, d.table, pk, d.columns⟩] }

def requireColumn (e : Entity) (field : String) : Except SchemaError Unit :=
  if e.hasField field then .ok () else .error (.unknownColumn e.name field)

def resolveLink (s : Schema) (owner : EntityId) : LinkDecl → Except SchemaError (Link × Link)
  | .foreignKey key => do
    requireColumn (s.entity owner) key
    return (.foreignKey key, .reverseForeignKey key)
  | .manyToMany throughName ownerKey targetKey => do
    let through ← s.entityNamed throughName
    requireColumn (s.entity through) ownerKey
    requireColumn (s.entity through) targetKey
    return (.manyToMany through ownerKey targetKey, .manyToMany through targetKey ownerKey)

def defaultMirrorName (owner : Entity) : String :=
  Text.lower owner.name ++ "s"

/-- Adds a relation. Its name must be new among the columns and relations of its owner. -/
def addRelation (s : Schema) (r : Relation) : Except SchemaError Schema :=
  let owner := s.entity r.owner
  if (s.findRelation? r.owner r.name).isSome || owner.hasField r.name then
    .error (.duplicateRelation owner.name r.name)
  else .ok { s with relations := s.relations ++ [r] }

/-- Adds a declared relation and its mirror. -/
def addDeclared (s : Schema) (d : RelationDecl) : Except SchemaError Schema := do
  let owner ← s.entityNamed d.owner
  let target ← s.entityNamed d.target
  let (link, mirrorLink) ← s.resolveLink owner d.link
  let forwardId : RelationId := ⟨s.relations.length⟩
  let mirrorId : RelationId := ⟨s.relations.length + 1⟩
  let s ← s.addRelation {
    name := d.name, link, owner, target, nullable := d.nullable, isVirtual := false
    relatedName := d.relatedName, mirror := mirrorId }
  s.addRelation {
    name := d.relatedName.getD (defaultMirrorName (s.entity owner)), link := mirrorLink
    owner := target, target := owner, nullable := true, isVirtual := true
    relatedName := some d.name, mirror := forwardId }

/-- The schema of the declarations, or the first fault among them. -/
def build (entities : List EntityDecl) (relations : List RelationDecl) : Except SchemaError Schema := do
  let s ← entities.foldlM addEntity ⟨[], []⟩
  relations.foldlM addDeclared s

end Schema

end RelQuery
