import RelQuery.Lookup
import RelQuery.Schema

/-!
# Resolving paths and fields

A path is resolved by walking the relations that its segments name. A field is resolved by walking all segments but
the last, which may name a column or a relation.
-/

namespace RelQuery

/-- A path with the relations it goes through and the entity it leads to. -/
structure ResolvedPath where
  path : Path
  hops : List RelationId
  target : EntityId
  deriving DecidableEq

namespace ResolvedPath

def lastHop? (r : ResolvedPath) : Option RelationId := r.hops.getLast?

def passesThrough (r : ResolvedPath) (s : Schema) : Bool :=
  r.hops.any fun id => (s.relation id).isManyToMany

end ResolvedPath

namespace Schema

/-- Walks the relations of the given names: the relations and the entity reached, or the first name that is none. -/
def walk (s : Schema) : EntityId → List String → Except String (List RelationId × EntityId)
  | entity, [] => .ok ([], entity)
  | entity, segment :: rest =>
    match s.findRelation? entity segment with
    | none => .error segment
    | some id =>
      match s.walk (s.relation id).target rest with
      | .error missing => .error missing
      | .ok (hops, target) => .ok (id :: hops, target)

def resolve (s : Schema) (root : EntityId) (path : Path) : Except QueryError ResolvedPath :=
  match s.walk root path.segments with
  | .ok (hops, target) => .ok ⟨path, hops, target⟩
  | .error segment => .error (.unknownRelation path.text segment)

end Schema

/-- What the last segment of a lookup names. -/
inductive FieldRef where
  | column (name : String)
  | relation (id : RelationId)
  deriving DecidableEq

/-- The field that a lookup names: the path walked, the entity reached, and what its last segment is there. -/
structure FieldTarget where
  path : Path
  entity : EntityId
  field : FieldRef
  deriving DecidableEq

/-- A column of an entity reached by a path. -/
structure ColumnTarget where
  path : Path
  entity : EntityId
  column : String
  deriving DecidableEq

/-- The column that stands for a field. A relation held by a field of the entity stands for that field, any other
relation for the primary key of the entity it leads to. -/
def FieldTarget.columnTarget (t : FieldTarget) (s : Schema) : ColumnTarget :=
  match t.field with
  | .column name => ⟨t.path, t.entity, name⟩
  | .relation id =>
    let rel := s.relation id
    match rel.link with
    | .foreignKey key => ⟨t.path, t.entity, key⟩
    | _ => ⟨t.path.child rel.name, rel.target, (s.entity rel.target).pk⟩

def FieldTarget.referenced (t : FieldTarget) (s : Schema) : EntityId :=
  match t.field with
  | .column _ => (t.columnTarget s).entity
  | .relation id => (s.relation id).target

namespace Schema

/-- Resolves the segments that are left of a lookup at an entity reached by the segments `walked`. -/
def resolveFieldFrom (s : Schema) (lookup : String) (parts : List String) (walked : List String) (entity : EntityId) :
    List String → Except QueryError FieldTarget
  | [] => .error (.unknownField (s.entity entity).name lookup)
  | segment :: rest =>
    match s.findRelation? entity segment with
    | some id =>
      if rest.isEmpty then .ok ⟨⟨walked⟩, entity, .relation id⟩
      else s.resolveFieldFrom lookup parts (walked ++ [segment]) (s.relation id).target rest
    | none =>
      match (s.entity entity).fieldColumn? segment with
      | some column =>
        if rest.isEmpty then .ok ⟨⟨walked⟩, entity, .column column.name⟩
        else .error (.unknownOperator lookup (joinSegments rest))
      | none =>
        if rest.isEmpty then .error (.unknownField (s.entity entity).name segment)
        else .error (.unknownRelation (joinSegments parts) segment)

def resolveField (s : Schema) (root : EntityId) (lookup : String) (parts : List String) :
    Except QueryError FieldTarget :=
  s.resolveFieldFrom lookup parts [] root parts

end Schema

end RelQuery
