import RelQuery.Alias.Plan
import RelQuery.Filter.Bound
import RelQuery.Sql.Printer

/-!
# Predicates

Bound filters and orderings as SQL expressions, once the joined paths have their aliases.
-/

namespace RelQuery

open Sql

/-- The comparison of a column that a condition makes, if its value has the form its operator needs. -/
def BoundCond.comparison? (c : BoundCond) (column : Expr) : Option Expr :=
  match c.operator, c.value with
  | .exact, .one v => if v.isNull then some (.isNull column false) else some (.binary .eq column (.param v))
  | .iexact, .one v =>
    if v.isNull then some (.isNull column false)
    else some (.binary .eq column.lowered (Expr.param v).lowered)
  | .isnull, .flag b => some (.isNull column !b)
  | .isIn, .many vs => some (.inList column (vs.map .param) false)
  | .gt, .one v => some (.binary .gt column (.param v))
  | .gte, .one v => some (.binary .gte column (.param v))
  | .lt, .one v => some (.binary .lt column (.param v))
  | .lte, .one v => some (.binary .lte column (.param v))
  | op, .one (.text pattern) =>
    if op.isLike then some (.like column (.param (.text pattern)) likeEscape false op.isCaseInsensitive) else none
  | _, _ => none

def BoundCond.expr (aliases : AliasPlan) (root : String) (c : BoundCond) : Except QueryError Expr :=
  match aliases.qualifier c.path root with
  | .error e => .error e
  | .ok table =>
    match c.comparison? (.col table c.column) with
    | some e => .ok e
    | none => .error (.invalidLookupValue c.lookup ("value does not fit operator " ++ quoted c.operator.name))

namespace BoundFilter

mutual

/-- The expression of a filter. An empty conjunction is true, an empty disjunction false. -/
def expr (aliases : AliasPlan) (root : String) : BoundFilter → Except QueryError Expr
  | .cond c => c.expr aliases root
  | .and items => (exprs aliases root items).map fun es => (Expr.all? es).getD (.literal (.bool true))
  | .or items => (exprs aliases root items).map fun es => (Expr.any? es).getD (.literal (.bool false))
  | .not item => (item.expr aliases root).map Expr.negate
termination_by structural filter => filter

def exprs (aliases : AliasPlan) (root : String) : List BoundFilter → Except QueryError (List Expr)
  | [] => .ok []
  | filter :: rest =>
    match filter.expr aliases root with
    | .error e => .error e
    | .ok e => (exprs aliases root rest).map (e :: ·)
termination_by structural filters => filters

end

end BoundFilter

/-- A compiled filter, and whether it reads columns of the root entity only. -/
structure Predicate where
  expr : Expr
  rootOnly : Bool

def BoundFilter.predicate (f : BoundFilter) (aliases : AliasPlan) (root : String) : Except QueryError Predicate :=
  (f.expr aliases root).map fun e => ⟨e, f.isRootOnly⟩

def BoundOrder.columnExpr (o : BoundOrder) (aliases : AliasPlan) (root : String) : Except QueryError Expr :=
  (aliases.qualifier o.path root).map fun table => .col table o.column

def BoundOrder.dir (o : BoundOrder) : SortDir := if o.descending then .desc else .asc

def BoundOrder.item (o : BoundOrder) (aliases : AliasPlan) (root : String) : Except QueryError OrderItem :=
  (o.columnExpr aliases root).map fun e => ⟨e, some o.dir⟩

end RelQuery
