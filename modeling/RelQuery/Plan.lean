import RelQuery.Request
import RelQuery.Settings

/-!
# Query plans

The statement of a request. When a request bounds its rows and joins relations, the root rows are paginated before the
joins repeat them: the page is a query of its own, and stands either in place of the root table or behind an `IN` on
the primary key.
-/

namespace RelQuery

open Sql

/-- A planned request: its query and the tree along which its rows are sliced. -/
structure PlannedQuery where
  query : Query
  tree : JoinTree
  projection : Projection
  rootPaginated : Bool

def PlannedQuery.statement (p : PlannedQuery) (d : Dialect) : Statement := p.query.statement d

/-- Orders by a column last, unless the ordering has it already. -/
def addTieBreak (items : List OrderItem) (table column : String) : List OrderItem :=
  if items.any (·.expr.isColumn table column) then items else items ++ [⟨.col table column, some .asc⟩]

def pageLabel : String := "__page"

namespace Prepared

def joins (p : Prepared) : Except QueryError (List Join) :=
  (p.bound.resolved.mapM fun (r : ResolvedPath) => r.joins p.schema p.aliases p.rootTable).map List.flatten

def predicates (p : Prepared) : Except QueryError (List Predicate) :=
  p.bound.filters.mapM fun f => f.predicate p.aliases p.rootTable

def addRootTieBreak (p : Prepared) (items : List OrderItem) : List OrderItem :=
  addTieBreak items p.rootTable p.rootEntity.pkColumn.dbName

/-- The ordering of the rows: as asked for, then by the primary keys of the root and of every joined table. -/
def orderBy (p : Prepared) : Except QueryError (List OrderItem) := do
  let items ← p.bound.orders.mapM fun o => o.item p.aliases p.rootTable
  p.bound.resolved.foldlM
    (fun items r => do
      let table ← p.aliases.qualifier r.path p.rootTable
      return addTieBreak items table (p.schema.entity r.target).pkColumn.dbName)
    (p.addRootTieBreak items)

/-- Whether some ordering reads a joined table. -/
def ordersByRelation (p : Prepared) : Bool := p.bound.orders.any (!·.path.isRoot)

/-- The ordering of a page. Of the joined rows of a root row, the one that comes first in the direction counts. -/
def pageOrder (p : Prepared) : Except QueryError (List OrderItem) := do
  let items ← p.bound.orders.mapM fun o =>
    (o.columnExpr p.aliases p.rootTable).map fun e =>
      if o.path.isRoot then (⟨e, some o.dir⟩ : OrderItem)
      else if o.descending then ⟨e.max, some .desc⟩
      else ⟨e.min, some .asc⟩
  return p.addRootTieBreak items

/-- The page before it is ordered and bounded. Where an ordering reads a joined table, the joined rows are grouped by
root row; otherwise conditions on joined tables select root rows by primary key. -/
def pageRows (p : Prepared) (joins : List Join) (predicates : List Predicate) (select : List SelectItem) : Query :=
  let page : Query := { Query.empty with select, table := some (.ofTable p.rootTable) }
  if p.ordersByRelation then
    { page with joins, condition := Expr.all? (predicates.map (·.expr)), groupBy := p.rootColumns }
  else
    let onRoot := (predicates.filter (·.rootOnly)).map (·.expr)
    let onJoined := (predicates.filter (!·.rootOnly)).map (·.expr)
    if onJoined.isEmpty then { page with condition := Expr.all? onRoot }
    else
      let matching : Query :=
        { Query.empty with
          select := [⟨p.rootKey, none⟩], table := some (.ofTable p.rootTable), joins
          condition := Expr.all? onJoined }
      { page with condition := Expr.all? (onRoot ++ [.inQuery p.rootKey matching false]) }

def page (p : Prepared) (joins : List Join) (predicates : List Predicate) (select : List SelectItem) :
    Except QueryError Query := do
  let orderBy ← p.pageOrder
  return { p.pageRows joins predicates select with orderBy, bounds := LimitOffset.of? p.request.limit p.request.offset }

/-- Whether the root rows are paginated before they are joined. -/
def paginatesRoot (p : Prepared) : Bool :=
  p.request.isPaginated && !p.bound.resolved.isEmpty && !p.request.limitRawSql

def tree (p : Prepared) : Except QueryError JoinTree :=
  JoinSource.tree
    { schema := p.schema, resolved := p.bound.resolved, aliases := p.aliases, projection := p.bound.projection
      partialPaths := p.request.partialPaths }
    p.request.root

def query (p : Prepared) (settings : Settings) (tree : JoinTree) (joins : List Join) (predicates : List Predicate)
    (orderBy : List OrderItem) : Except QueryError Query := do
  let rows : Query := { Query.empty with select := tree.selectList p.rootTable, joins, orderBy }
  if !p.paginatesRoot then
    return { rows with
      table := some (.ofTable p.rootTable), condition := Expr.all? (predicates.map (·.expr))
      bounds := LimitOffset.of? p.request.limit p.request.offset }
  else if settings.pageAsSubquery then
    let page ← p.page joins predicates (p.rootColumns.map fun e => ⟨e, none⟩)
    return { rows with
      table := some (.ofQuery page p.rootTable)
      condition := Expr.all? ((predicates.filter (!·.rootOnly)).map (·.expr)) }
  else
    let page ← p.page joins predicates [⟨p.rootKey, none⟩]
    let keys : Query :=
      { Query.empty with
        select := [⟨.col pageLabel p.rootEntity.pkColumn.dbName, none⟩], table := some (.ofQuery page pageLabel) }
    return { rows with
      table := some (.ofTable p.rootTable)
      condition := Expr.all? (predicates.map (·.expr) ++ [.inQuery p.rootKey keys false]) }

def plan (p : Prepared) (settings : Settings) : Except QueryError PlannedQuery := do
  let tree ← p.tree
  let joins ← p.joins
  let predicates ← p.predicates
  let orderBy ← p.orderBy
  let query ← p.query settings tree joins predicates orderBy
  return { query, tree, projection := p.bound.projection, rootPaginated := p.paginatesRoot }

/-- The query that counts the root rows of a request, whatever its bounds. -/
def countQuery (p : Prepared) : Except QueryError Query := do
  let joins ← p.joins
  let predicates ← p.predicates
  return { Query.empty with
    select := [⟨p.rootKey.countDistinct, some "count"⟩], table := some (.ofTable p.rootTable), joins
    condition := Expr.all? (predicates.map (·.expr)) }

end Prepared

namespace Request

def plan (r : Request) (s : Schema) (settings : Settings) (registry : AliasRegistry) :
    Except NoResult PlannedQuery × AliasRegistry :=
  match r.prepare s registry with
  | (.error e, registry) => (.error e, registry)
  | (.ok prepared, registry) => (NoResult.lift (prepared.plan settings), registry)

def planCount (r : Request) (s : Schema) (registry : AliasRegistry) : Except NoResult Query × AliasRegistry :=
  match r.prepare s registry with
  | (.error e, registry) => (.error e, registry)
  | (.ok prepared, registry) => (NoResult.lift prepared.countQuery, registry)

end Request

end RelQuery
