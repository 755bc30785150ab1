import RelQuery.Value

/-!
# SQL expressions and queries

The part of SQL that relation queries need, as data: expressions, and queries that may hold further queries as derived
tables or as the right side of `IN`.
-/

namespace RelQuery.Sql

inductive Literal where
  | int (n : Int64)
  | text (s : String)
  | bool (b : Bool)
  | null
  deriving DecidableEq

inductive BinaryOp where
  | eq | ne | lt | gt | lte | gte
  | and | or
  deriving DecidableEq

inductive SortDir where
  | asc
  | desc
  deriving DecidableEq, Inhabited

/-- Which of the rows a query keeps: the first `limit` after the first `offset`. -/
structure LimitOffset where
  limit : Option UInt64
  offset : Option UInt64
  deriving DecidableEq

/-- The bounds that are given; where none is, a query has no clause for them. -/
def LimitOffset.of? (limit offset : Option UInt64) : Option LimitOffset :=
  if limit.isSome || offset.isSome then some ⟨limit, offset⟩ else none

mutual

inductive Expr where
  | column (table : Option String) (name : String)
  | literal (l : Literal)
  | param (v : Value)
  | binary (op : BinaryOp) (left right : Expr)
  | not (e : Expr)
  | call (name : String) (distinct : Bool) (args : List Expr)
  | inList (e : Expr) (values : List Expr) (negated : Bool)
  | inQuery (e : Expr) (query : Query) (negated : Bool)
  | isNull (e : Expr) (negated : Bool)
  /-- Matching against a pattern in which the character `escape` takes away the special meaning of the next one. -/
  | like (e pattern : Expr) (escape : Char) (negated caseInsensitive : Bool)
  | paren (e : Expr)

structure SelectItem where
  expr : Expr
  label : Option String

/-- Where the rows of a table come from. -/
inductive TableSource where
  | named (table : String)
  | derived (query : Query)

structure TableRef where
  source : TableSource
  label : Option String

structure Join where
  table : TableRef
  on : Expr

structure OrderItem where
  expr : Expr
  dir : Option SortDir

structure Query where
  select : List SelectItem
  table : Option TableRef
  joins : List Join
  condition : Option Expr
  groupBy : List Expr
  orderBy : List OrderItem
  bounds : Option LimitOffset

end

instance : Inhabited Expr := ⟨.literal .null⟩

namespace Expr

def col (table name : String) : Expr := .column (some table) name

def negate (e : Expr) : Expr := .not (.paren e)

def lowered (e : Expr) : Expr := .call "LOWER" false [e]

def countDistinct (e : Expr) : Expr := .call "COUNT" true [e]

def min (e : Expr) : Expr := .call "MIN" false [e]

def max (e : Expr) : Expr := .call "MAX" false [e]

/-- Puts an expression in parentheses if its top is the given operator. -/
def parenIf (op : BinaryOp) : Expr → Expr
  | .binary o l r => if o = op then .paren (.binary o l r) else .binary o l r
  | e => e

/-- Joins expressions by an operator, from the left. -/
def joined? (op : BinaryOp) : List Expr → Option Expr
  | [] => none
  | e :: rest => some (rest.foldl (.binary op) e)

/-- The conjunction of expressions; disjunctions among them get parentheses. -/
def all? (es : List Expr) : Option Expr := joined? .and (es.map (parenIf .or))

/-- The disjunction of expressions; conjunctions among them get parentheses. -/
def any? (es : List Expr) : Option Expr := joined? .or (es.map (parenIf .and))

def isColumn (table name : String) : Expr → Bool
  | .column (some t) n => t == table && n == name
  | _ => false

end Expr

def TableRef.ofTable (table : String) : TableRef := ⟨.named table, none⟩

def TableRef.aliased (table label : String) : TableRef := ⟨.named table, some label⟩

def TableRef.ofQuery (query : Query) (label : String) : TableRef := ⟨.derived query, some label⟩

namespace Query

def empty : Query := ⟨[], none, [], none, [], [], none⟩

def limit (q : Query) : Option UInt64 := q.bounds.bind (·.limit)

def offset (q : Query) : Option UInt64 := q.bounds.bind (·.offset)

section

variable {q : Query} {l o : Option UInt64} (h : q.bounds = LimitOffset.of? l o)

include h

theorem limit_of_bounds : q.limit = l := by
  rw [limit, h]
  cases l <;> cases o <;> rfl

theorem offset_of_bounds : q.offset = o := by
  rw [offset, h]
  cases l <;> cases o <;> rfl

end

def filter (q : Query) (condition : Expr) : Query :=
  match q.condition with
  | some existing => { q with condition := some (.binary .and existing condition) }
  | none => { q with condition := some condition }

end Query

end RelQuery.Sql
