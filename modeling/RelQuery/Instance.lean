import RelQuery.Document
import RelQuery.Schema

/-!
# Instances

A row of an entity with the related instances that were loaded with it.
-/

namespace RelQuery

mutual

/-- An instance of an entity: its fields and the relations that were loaded, both keyed by name. -/
structure Instance where
  entity : EntityId
  fields : List (String × Value)
  relations : List (String × Related)

/-- What a relation leads to: at most one instance, or any number of them. -/
inductive Related where
  | one (related : Option Instance)
  | many (related : List Instance)

end

def Related.instances : Related → List Instance
  | .one related => related.toList
  | .many related => related

def Related.mapInstances (f : Instance → Instance) : Related → Related
  | .one related => .one (related.map f)
  | .many related => .many (related.map f)

namespace Instance

def ofFields (entity : EntityId) (fields : NameMap Value) : Instance := ⟨entity, fields, []⟩

def get? (i : Instance) (field : String) : Option Value := NameMap.get? i.fields field

/-- The primary key; null if the instance lacks it. -/
def pk (i : Instance) (s : Schema) : Value := (i.get? (s.entity i.entity).pk).getD .null

def related? (i : Instance) (relation : String) : Option Related := NameMap.get? i.relations relation

def isLoaded (i : Instance) (relation : String) : Bool := (i.related? relation).isSome

def one? (i : Instance) (relation : String) : Option Instance :=
  match i.related? relation with
  | some (.one related) => related
  | _ => none

def many (i : Instance) (relation : String) : List Instance :=
  match i.related? relation with
  | some (.many related) => related
  | _ => []

def setRelated (i : Instance) (relation : String) (related : Related) : Instance :=
  { i with relations := NameMap.put relation related i.relations }

def dropRelated (i : Instance) (relation : String) : Instance :=
  { i with relations := NameMap.drop relation i.relations }

end Instance

mutual

/-- The instance as an object of its fields and relations; a relation hides a field of the same name. -/
def Instance.toDocument : Instance → Document
  | ⟨_, fields, relations⟩ =>
    let ofFields : NameMap Document := NameMap.ofPairs (fields.map fun (name, v) => (name, v.toDocument))
    .object ((relationDocuments relations).foldl (fun m p => NameMap.put p.1 p.2 m) ofFields)
termination_by structural i => i

def relationDocuments : List (String × Related) → List (String × Document)
  | [] => []
  | (name, related) :: rest => (name, related.toDocument) :: relationDocuments rest
termination_by structural relations => relations

/-- A relation to one as an object or null, a relation to many as an array. -/
def Related.toDocument : Related → Document
  | .one related => optionalDocument related
  | .many related => .array (instanceDocuments related)
termination_by structural r => r

def optionalDocument : Option Instance → Document
  | none => .null
  | some i => i.toDocument
termination_by structural i => i

def instanceDocuments : List Instance → List Document
  | [] => []
  | i :: rest => i.toDocument :: instanceDocuments rest
termination_by structural l => l

end

/-- How instances are constructed from the values of a row. A stub, an instance known only by its key or joined only
for it, skips validation. -/
structure Factory where
  construct : Entity → EntityId → NameMap Value → (skipValidation : Bool) → Except ConstructError Instance

namespace Factory

def missingColumn? (e : Entity) (values : NameMap Value) : Option Column :=
  e.columns.find? fun c => !c.nullable && ((values.get? c.name).getD .null).isNull

/-- Takes the values as they are, and refuses a missing value unless validation is skipped. -/
def standard : Factory where
  construct e id values skipValidation :=
    if skipValidation then .ok (.ofFields id values)
    else
      match missingColumn? e values with
      | some c => .error (.missingField e.name c.name)
      | none => .ok (.ofFields id values)

end Factory

end RelQuery
