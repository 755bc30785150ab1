import RelQuery.Prefetch.Load

/-!
# Query sets

A query set says what to find, step by step, and is then run on an engine: for all instances, for one of them, or for
their number.
-/

namespace RelQuery

open Sql

structure QuerySet where
  root : EntityId
  filters : List Filter := []
  selectRelated : List Path := []
  prefetchRelated : List Path := []
  fields : List FieldSelection := []
  excludeFields : List FieldSelection := []
  orderBy : List OrderSpec := []
  limit : Option UInt64 := none
  offset : Option UInt64 := none
  limitRawSql : Bool := false

/-- A compiled query set: the main statement and what is loaded after it. -/
structure CompiledQuery where
  statement : Statement
  prefetch : List PrefetchStep

namespace QuerySet

def ofEntity (root : EntityId) : QuerySet := { root }

def filter (q : QuerySet) (f : Filter) : QuerySet := { q with filters := q.filters ++ [f] }

def exclude (q : QuerySet) (f : Filter) : QuerySet := q.filter (.not f)

def joining (q : QuerySet) (paths : List Path) : QuerySet := { q with selectRelated := q.selectRelated ++ paths }

def prefetching (q : QuerySet) (paths : List Path) : QuerySet :=
  { q with prefetchRelated := q.prefetchRelated ++ paths }

def selecting (q : QuerySet) (selection : FieldSelection) : QuerySet := { q with fields := q.fields ++ [selection] }

def leavingOut (q : QuerySet) (selection : FieldSelection) : QuerySet :=
  { q with excludeFields := q.excludeFields ++ [selection] }

def orderedBy (q : QuerySet) (specs : List OrderSpec) : QuerySet := { q with orderBy := q.orderBy ++ specs }

/-- The product of two numbers, or the greatest number if it is too large. -/
def saturatingMul (a b : UInt64) : UInt64 :=
  UInt64.ofNat (min (a.toNat * b.toNat) (UInt64.size - 1))

/-- Keeps one page; pages are counted from one, and page zero is the first one, too. -/
def paginate (q : QuerySet) (page pageSize : UInt64) : QuerySet :=
  { q with limit := some pageSize, offset := some (saturatingMul (max page 1 - 1) pageSize) }

/-- The request of the main statement, and the orderings left to follow-up statements. -/
def request (q : QuerySet) (s : Schema) : Except QueryError (Request × List OrderSpec) := do
  q.prefetchRelated.forM fun path => discard (s.resolve q.root path)
  let (main, later) := splitOrders q.orderBy q.prefetchRelated q.selectRelated
  return (
    { root := q.root, filters := q.filters, selectRelated := q.selectRelated, prefetchRelated := q.prefetchRelated
      fields := q.fields, excludeFields := q.excludeFields, orderBy := main
      limit := q.limit, offset := q.offset, limitRawSql := q.limitRawSql
      required := PrefetchPlan.requiredKeys s q.root q.prefetchRelated },
    later)

def prefetchPlan (s : Schema) (r : Request) (planned : PlannedQuery) (orderBy : List OrderSpec) :
    Except QueryError PrefetchPlan :=
  PrefetchPlan.build s r.root r.prefetchRelated planned.tree planned.projection orderBy

variable {σ : Type}

/-- Compiles the query set without executing anything. -/
def compile (q : QuerySet) (e : Engine σ) : Run σ CompiledQuery := do
  let (request, later) ← Run.ofExcept (q.request e.schema)
  let planned ← e.plan request
  let plan ← Run.ofExcept (prefetchPlan e.schema request planned later)
  return ⟨planned.statement e.settings.dialect, nodesOutline e.schema plan⟩

def all (q : QuerySet) (e : Engine σ) : Run σ (List Instance) := do
  let (request, later) ← Run.ofExcept (q.request e.schema)
  let (instances, planned) ← e.fetch request
  let plan ← Run.ofExcept (prefetchPlan e.schema request planned later)
  prefetch e plan instances

def rootName (q : QuerySet) (e : Engine σ) : String := (e.schema.entity q.root).name

def single (name : String) : List Instance → Except QueryError Instance
  | [i] => .ok i
  | [] => .error (.noMatchingRows name)
  | found => .error (.multipleMatchingRows name found.length)

def get (q : QuerySet) (e : Engine σ) : Run σ Instance := do
  let found ← q.all e
  Run.ofExcept (single (q.rootName e) found)

def get? (q : QuerySet) (e : Engine σ) : Run σ (Option Instance) := do
  let found ← q.all e
  if found.isEmpty then return none
  return some (← Run.ofExcept (single (q.rootName e) found))

/-- The query set of which the first instance is the first of this one: by primary key if no ordering is given. -/
def firstOnly (q : QuerySet) : QuerySet :=
  { q with limit := some 1, orderBy := if q.orderBy.isEmpty then [.ascending pkAlias] else q.orderBy }

def first (q : QuerySet) (e : Engine σ) : Run σ Instance := do
  match ← q.firstOnly.all e with
  | i :: _ => return i
  | [] => throw (.failed (.noMatchingRows (q.rootName e)))

/-- The count that rows hold: none if there is no row, no integer, or a negative one. -/
def countIn (rows : List Row) : Nat :=
  match rows.head?.bind (·.get? "count") with
  | some v => ((v.asInt?.map (·.toInt.toNat))).getD 0
  | none => 0

def count (q : QuerySet) (e : Engine σ) : Run σ Nat := do
  let (request, _) ← Run.ofExcept (q.request e.schema)
  let query ← Run.onRegistry (request.planCount e.schema)
  let rows ← e.execute query
  return countIn rows

def exists_ (q : QuerySet) (e : Engine σ) : Run σ Bool := do
  return 0 < (← q.count e)

end QuerySet

end RelQuery
