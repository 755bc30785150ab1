import RelQuery.Distinct
import RelQuery.Filter
import RelQuery.Schema.Resolve

/-!
# Bound filters

A filter is bound to a schema by resolving its lookups and bringing their values into the form that their operators
compare with. Only then is it known which paths a statement has to join.
-/

namespace RelQuery

inductive BoundValue where
  | one (v : Value)
  | many (vs : List Value)
  | flag (b : Bool)
  deriving DecidableEq

/-- A bound lookup: the column it reads, by the path to its entity and its name in the table. -/
structure BoundCond where
  lookup : String
  path : Path
  column : String
  operator : Operator
  value : BoundValue
  deriving DecidableEq

inductive BoundFilter where
  | cond (c : BoundCond)
  | and (items : List BoundFilter)
  | or (items : List BoundFilter)
  | not (item : BoundFilter)

/-- The one value that a value of a lookup stands for, where primary keys are those of the given entity. -/
def ValueRef.plain (e : Entity) (s : Schema) (raw : String) : ValueRef → Except QueryError Value
  | .scalar v => .ok v
  | .primaryKey v => .ok v
  | .object i => .ok (i.pk s)
  | .payload fields =>
    match NameMap.get? fields e.pk with
    | some v => .ok v
    | none => .error (.invalidLookupValue raw ("payload has no " ++ quoted e.pk ++ " entry"))
  | .list _ => .error (.invalidLookupValue raw "list values require `in`")

/-- The text that a value of a text-matching lookup stands for. -/
def ValueRef.matchText (raw : String) : ValueRef → Except QueryError String
  | .scalar .null => .error (.invalidLookupValue raw "pattern must not be null")
  | .scalar v => .ok v.display
  | _ => .error (.invalidLookupValue raw "text matching requires a plain value, not an instance")

def ValueRef.bind (s : Schema) (e : Entity) (raw : String) (op : Operator) (value : ValueRef) :
    Except QueryError BoundValue :=
  match op with
  | .isnull =>
    match value with
    | .scalar v =>
      match v.asBool? with
      | some b => .ok (.flag b)
      | none => .error (.invalidLookupValue raw "isnull expects a boolean")
    | _ => .error (.invalidLookupValue raw "isnull expects a boolean")
  | .isIn =>
    match value with
    | .list items => (items.mapM (ValueRef.plain e s raw)).map .many
    | _ => .error (.invalidLookupValue raw "in expects a list")
  | .contains | .icontains | .startswith | .istartswith | .endswith | .iendswith =>
    (value.matchText raw).map fun text => .one (.text (op.pattern text))
  | .exact | .iexact => (value.plain e s raw).map .one
  | .gt | .gte | .lt | .lte => do
    let v ← value.plain e s raw
    if v.isNull then .error (.invalidLookupValue raw "cannot compare with null") else .ok (.one v)

namespace Schema

/-- The column that a lookup reads, and the entity whose primary keys its values stand for. -/
def bindField (s : Schema) (root : EntityId) (raw : String) (parts : List String) :
    Except QueryError (Path × Column × EntityId) := do
  let target ← s.resolveField root raw parts
  let place := target.columnTarget s
  match (s.entity place.entity).column? place.column with
  | some column => return (place.path, column, target.referenced s)
  | none => throw (.unknownField (s.entity place.entity).name place.column)

def bindLookup (s : Schema) (root : EntityId) (raw : String) (value : ValueRef) : Except QueryError BoundCond := do
  let lookup := Lookup.parse raw
  let (path, column, referenced) ← s.bindField root raw lookup.parts
  let bound ← value.bind s (s.entity referenced) raw lookup.operator
  return ⟨raw, path, column.dbName, lookup.operator, bound⟩

mutual

def bindFilter (s : Schema) (root : EntityId) : Filter → Except QueryError BoundFilter
  | .lookup raw value => (s.bindLookup root raw value).map .cond
  | .and items => (bindFilters s root items).map .and
  | .or items => (bindFilters s root items).map .or
  | .not item => (bindFilter s root item).map .not
termination_by structural filter => filter

def bindFilters (s : Schema) (root : EntityId) : List Filter → Except QueryError (List BoundFilter)
  | [] => .ok []
  | filter :: rest =>
    match bindFilter s root filter with
    | .error e => .error e
    | .ok bound => (bindFilters s root rest).map (bound :: ·)
termination_by structural filters => filters

end

end Schema

namespace BoundFilter

mutual

def conds : BoundFilter → List BoundCond
  | .cond c => [c]
  | .and items => condsOf items
  | .or items => condsOf items
  | .not item => item.conds
termination_by structural filter => filter

def condsOf : List BoundFilter → List BoundCond
  | [] => []
  | filter :: rest => filter.conds ++ condsOf rest
termination_by structural filters => filters

end

/-- The paths that a filter reads, each once, the root left out. -/
def paths (f : BoundFilter) : List Path :=
  distinct ((f.conds.map (·.path)).filter (!·.isRoot))

def isRootOnly (f : BoundFilter) : Bool :=
  f.conds.all (·.path.isRoot)

end BoundFilter

structure BoundOrder where
  path : Path
  column : String
  descending : Bool
  deriving DecidableEq

def Schema.bindOrder (s : Schema) (root : EntityId) (spec : OrderSpec) : Except QueryError BoundOrder := do
  let (path, column, _) ← s.bindField root spec.text spec.parts
  return ⟨path, column.dbName, spec.descending⟩

end RelQuery
