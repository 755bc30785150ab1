import RelQuery.Error

/-!
# Schemas

A schema is a list of entities and a list of relations between them; ids are positions in these lists. Every relation
has a mirror that leads back.
-/

namespace RelQuery

structure EntityId where
  index : Nat
  deriving DecidableEq, Inhabited

structure RelationId where
  index : Nat
  deriving DecidableEq, Inhabited

def EntityId.display (id : EntityId) : String :=
  "e" ++ toString id.index

/-- A column: the field it is in an instance, and its name in the table. -/
structure Column where
  name : String
  dbName : String
  nullable : Bool
  deriving DecidableEq, Inhabited

/-- The field name that stands for the primary key of any entity. -/
def pkAlias : String := "pk"

/-- An entity: a table whose rows become instances. -/
structure Entity where
  name : String
  table : String
  pk : String
  columns : List Column
  deriving DecidableEq, Inhabited

namespace Entity

def column? (e : Entity) (field : String) : Option Column :=
  e.columns.find? (·.name == field)

def hasField (e : Entity) (field : String) : Bool :=
  (e.column? field).isSome

def pkColumn (e : Entity) : Column :=
  (e.column? e.pk).getD ⟨e.pk, e.pk, false⟩

/-- The column that a field name or the general name of the primary key stands for. -/
def fieldColumn? (e : Entity) (field : String) : Option Column :=
  if field = pkAlias then some e.pkColumn else e.column? field

def dbName (e : Entity) (field : String) : String :=
  match e.column? field with
  | some c => c.dbName
  | none => field

end Entity

/-- How the rows of two entities are linked. -/
inductive Link where
  /-- The owner has a field that holds the target's primary key. -/
  | foreignKey (key : String)
  /-- The target has a field that holds the owner's primary key. -/
  | reverseForeignKey (key : String)
  /-- A row of a third entity holds the primary keys of both. -/
  | manyToMany (through : EntityId) (ownerKey targetKey : String)
  deriving DecidableEq

instance : Inhabited Link := ⟨.foreignKey ""⟩

/-- A relation, as seen from the entity that owns it. -/
structure Relation where
  name : String
  link : Link
  owner : EntityId
  target : EntityId
  nullable : Bool
  /-- Whether the relation was declared from the other side. -/
  isVirtual : Bool
  relatedName : Option String
  mirror : RelationId
  deriving DecidableEq, Inhabited

namespace Relation

def isForeignKey (r : Relation) : Bool :=
  match r.link with
  | .foreignKey _ => true
  | _ => false

def isManyToMany (r : Relation) : Bool :=
  match r.link with
  | .manyToMany .. => true
  | _ => false

def isToMany (r : Relation) : Bool := !r.isForeignKey

def isSelfReference (r : Relation) : Bool := r.owner == r.target

end Relation

structure Schema where
  entities : List Entity
  relations : List Relation
  deriving DecidableEq, Inhabited

namespace Schema

def entity (s : Schema) (id : EntityId) : Entity :=
  s.entities[id.index]?.getD default

def relation (s : Schema) (id : RelationId) : Relation :=
  s.relations[id.index]?.getD default

def findEntity? (s : Schema) (name : String) : Option EntityId :=
  (s.entities.findIdx? (·.name == name)).map EntityId.mk

/-- The position of the entity of a name, or the error that there is none. -/
def entityNamed (s : Schema) (name : String) : Except SchemaError EntityId :=
  match s.findEntity? name with
  | some id => .ok id
  | none => .error (.unknownEntity name)

def findRelation? (s : Schema) (entity : EntityId) (name : String) : Option RelationId :=
  (s.relations.findIdx? fun r => r.owner == entity && r.name == name).map RelationId.mk

def relationsOf (s : Schema) (entity : EntityId) : List Relation :=
  s.relations.filter (·.owner == entity)

def relationIdsOf (s : Schema) (entity : EntityId) : List RelationId :=
  ((List.range s.relations.length).map RelationId.mk).filter fun id => (s.relation id).owner == entity

def mirrorName (s : Schema) (relation : Relation) : String :=
  (s.relation relation.mirror).name

def relationLabel (s : Schema) (relation : Relation) : String :=
  (s.entity relation.owner).name ++ "." ++ relation.name

end Schema

end RelQuery
