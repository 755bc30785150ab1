import RelQuery.Filter.Predicate
import RelQuery.Join.Clause
import RelQuery.Join.JoinSet
import RelQuery.Join.Tree

/-!
# Requests

What is asked of one statement. A request is bound to a schema in two steps: first everything that it names is
resolved, which tells the paths to join; then these paths get their aliases.
-/

namespace RelQuery

open Sql

structure Request where
  root : EntityId
  filters : List Filter := []
  selectRelated : List Path := []
  prefetchRelated : List Path := []
  fields : List FieldSelection := []
  excludeFields : List FieldSelection := []
  orderBy : List OrderSpec := []
  limit : Option UInt64 := none
  offset : Option UInt64 := none
  /-- Whether the bounds apply to the joined rows instead of the root rows. -/
  limitRawSql : Bool := false
  /-- Paths whose instances may lack columns that they need otherwise. -/
  partialPaths : List Path := []
  /-- Fields that are selected whatever the selections say. -/
  required : List (Path × String) := []
  /-- The projection that the selections add to. -/
  projection : Projection := .empty

def Request.isPaginated (r : Request) : Bool := r.limit.isSome || r.offset.isSome

structure BoundRequest where
  projection : Projection
  filters : List BoundFilter
  orders : List BoundOrder
  resolved : List ResolvedPath

namespace Request

def bindProjection (r : Request) (s : Schema) : Except QueryError Projection := do
  let p ← r.projection.selectAll s r.root .keep r.fields
  let p ← p.selectAll s r.root .leaveOut r.excludeFields
  return r.required.foldl (fun p (path, field) => p.require path field) p

/-- Joins the relations to load along, without those that the projection leaves out. -/
def bindRelated (r : Request) (s : Schema) (p : Projection) : Except QueryError JoinSet := do
  r.selectRelated.forM fun path => discard (s.resolve r.root path)
  return (r.selectRelated.filter fun path => !p.excludesPath path).foldl JoinSet.add .empty

/-- Resolves all that a request names. Filters and orderings join the paths that they read. -/
def bind (r : Request) (s : Schema) : Except QueryError BoundRequest := do
  let projection ← r.bindProjection s
  let joined ← r.bindRelated s projection
  let filters ← s.bindFilters r.root r.filters
  let orders ← r.orderBy.mapM (s.bindOrder r.root)
  let joined := ((filters.flatMap BoundFilter.paths) ++ orders.map (·.path)).foldl JoinSet.add joined
  let resolved ← joined.expanded.mapM (s.resolve r.root)
  return { projection, filters, orders, resolved }

end Request

structure Prepared where
  schema : Schema
  request : Request
  bound : BoundRequest
  aliases : AliasPlan

namespace Prepared

def rootEntity (p : Prepared) : Entity := p.schema.entity p.request.root

def rootTable (p : Prepared) : String := p.rootEntity.table

def rootKey (p : Prepared) : Expr := .col p.rootTable p.rootEntity.pkColumn.dbName

def rootColumns (p : Prepared) : List Expr := p.rootEntity.columns.map fun c => .col p.rootTable c.dbName

/-- The joined paths whose instances must be complete. -/
def completePaths (p : Prepared) : List ResolvedPath :=
  p.bound.resolved.filter fun r =>
    !p.bound.projection.excludesPath r.path && !p.request.partialPaths.contains r.path

def checkRequired (p : Prepared) : Except QueryError Unit :=
  p.bound.projection.checkRequired p.schema p.request.root p.completePaths

end Prepared

/-- Binds a request and names its tables. Aliases that were registered stay so when the request is refused. -/
def Request.prepare (r : Request) (s : Schema) (registry : AliasRegistry) :
    Except NoResult Prepared × AliasRegistry :=
  match r.bind s with
  | .error e => (.error (.failed e), registry)
  | .ok bound =>
    match AliasPlan.assign registry s (s.entity r.root).table bound.resolved with
    | (.error e, registry) => (.error e, registry)
    | (.ok aliases, registry) =>
      let prepared : Prepared := ⟨s, r, bound, aliases⟩
      (NoResult.lift (prepared.checkRequired.map fun _ => prepared), registry)

end RelQuery
