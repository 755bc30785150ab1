/-!
# Errors

What can go wrong while a schema is built, a query compiled or its rows turned into instances, with the wording that
a reader sees.
-/

namespace RelQuery

/-- Why a schema cannot be built, or what it lacks. -/
inductive SchemaError where
  | duplicateEntity (name : String)
  | unknownEntity (name : String)
  | unknownColumn (entity column : String)
  | duplicateRelation (entity relation : String)
  | missingPrimaryKey (entity : String)
  deriving DecidableEq

inductive ConstructError where
  | missingField (entity field : String)
  | custom (entity cause : String)
  deriving DecidableEq

inductive QueryError where
  /-- A path goes through a relation that the entity reached does not have. -/
  | unknownRelation (path segment : String)
  /-- The last part of a lookup is neither a column nor a relation of the entity reached. -/
  | unknownField (entity field : String)
  /-- What follows a column is no operator. -/
  | unknownOperator (lookup operator : String)
  /-- The value of a lookup does not suit its operator. -/
  | invalidLookupValue (lookup reason : String)
  /-- One alias names two tables of a statement. -/
  | ambiguousAlias (name : String) (paths : List String)
  /-- A projection leaves out a column that every instance needs. -/
  | excludedRequiredField (entity field : String)
  /-- A query for one instance found none. -/
  | noMatchingRows (entity : String)
  /-- A query for one instance found several. -/
  | multipleMatchingRows (entity : String) (count : Nat)
  /-- The backend could not execute a statement. -/
  | backend (cause : String)
  | construct (e : ConstructError)
  | schema (e : SchemaError)
  deriving DecidableEq

def quoted (name : String) : String :=
  "`" ++ name ++ "`"

def SchemaError.message : SchemaError → String
  | duplicateEntity name => "duplicate entity: " ++ name
  | unknownEntity name => "unknown entity: " ++ name
  | unknownColumn entity column => "unknown column " ++ quoted column ++ " on " ++ entity
  | duplicateRelation entity relation => "duplicate relation " ++ quoted relation ++ " on " ++ entity
  | missingPrimaryKey entity => "entity " ++ entity ++ " has no primary key column"

def ConstructError.message : ConstructError → String
  | missingField entity field => "missing required field " ++ quoted field ++ " on " ++ entity
  | custom entity cause => "cannot construct " ++ entity ++ ": " ++ cause

def QueryError.message : QueryError → String
  | unknownRelation path segment => "unknown relation " ++ quoted segment ++ " in path " ++ quoted path
  | unknownField entity field => "unknown field " ++ quoted field ++ " on " ++ entity
  | unknownOperator lookup operator => "unknown operator " ++ quoted operator ++ " in lookup " ++ quoted lookup
  | invalidLookupValue lookup reason => "invalid value for lookup " ++ quoted lookup ++ ": " ++ reason
  | ambiguousAlias name paths =>
    "alias " ++ quoted name ++ " assigned to more than one join path: " ++ String.intercalate ", " paths
  | excludedRequiredField entity field => "cannot exclude required field " ++ quoted field ++ " on " ++ entity
  | noMatchingRows entity => "no " ++ entity ++ " matches the given query"
  | multipleMatchingRows entity count => "expected one " ++ entity ++ ", found " ++ toString count
  | backend cause => "backend execution failed: " ++ cause
  | construct e => e.message
  | schema e => e.message

/-- Whether the error shows before any statement is executed. -/
def QueryError.isCompileError : QueryError → Bool
  | noMatchingRows _ | multipleMatchingRows .. | backend _ | construct _ => false
  | _ => true

end RelQuery
