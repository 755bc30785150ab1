import Mathlib.Data.List.Sort
import RelQuery.Proofs.Sql.Scope

/-!
# What queries answer

The meaning of queries over bags of rows, as the standard has it: comparisons with null are unknown, a condition keeps
the rows for which it is true, a left outer join keeps every row on its left. What the standard leaves open is left
open: how values compare, where nulls stand in an ordering, and in which order rows come that an ordering does not
separate.
-/

namespace RelQuery.Sql

/-- A row of a table: values under the names of its columns. -/
abbrev Record := List (String × Value)

/-- The value of a column; a missing column counts as null. -/
def Record.at_ (r : Record) (column : String) : Value := (NameMap.get? r column).getD .null

/-- A row of joined tables: a row of each, under the name that the table goes by. -/
abbrev Tuple := List (String × Record)

structure Database where
  rows : String → List Record

/-- What servers decide differently. The order in which rows come before they are sorted may be any. -/
structure Server where
  compare : Value → Value → Ordering
  compare_trans : Std.TransCmp compare
  nullsFirst : SortDir → Bool
  lower : Value → Value
  like : (text pattern : Value) → (escape : Char) → (caseInsensitive : Bool) → Bool
  arrange : Query → List Tuple → List Tuple
  arrange_perm : ∀ q l, (arrange q l).Perm l

instance (sv : Server) : Std.TransCmp sv.compare := sv.compare_trans

/-- The truth value that a value stands for; none if it is unknown. -/
def truth (v : Value) : Option Bool := v.asBool?

def ofTruth : Option Bool → Value
  | some b => .bool b
  | none => .null

def and3 : Option Bool → Option Bool → Option Bool
  | some false, _ => some false
  | _, some false => some false
  | some true, some true => some true
  | _, _ => none

def or3 : Option Bool → Option Bool → Option Bool
  | some true, _ => some true
  | _, some true => some true
  | some false, some false => some false
  | _, _ => none

theorem and3_assoc (a b c : Option Bool) : and3 (and3 a b) c = and3 a (and3 b c) := by
  rcases a with - | - | - <;> rcases b with - | - | - <;> rcases c with - | - | - <;> rfl

theorem or3_assoc (a b c : Option Bool) : or3 (or3 a b) c = or3 a (or3 b c) := by
  rcases a with - | - | - <;> rcases b with - | - | - <;> rcases c with - | - | - <;> rfl

theorem and3_true (a : Option Bool) : and3 a (some true) = a := by
  rcases a with - | - | - <;> rfl

theorem or3_false (a : Option Bool) : or3 a (some false) = a := by
  rcases a with - | - | - <;> rfl

theorem and3_eq_true {a b : Option Bool} : and3 a b = some true ↔ a = some true ∧ b = some true := by
  rcases a with - | - | - <;> rcases b with - | - | - <;> simp [and3]

theorem or3_eq_true {a b : Option Bool} : or3 a b = some true ↔ a = some true ∨ b = some true := by
  rcases a with - | - | - <;> rcases b with - | - | - <;> simp [or3]

@[simp] theorem truth_ofTruth (b : Option Bool) : truth (ofTruth b) = b := by
  cases b <;> rfl

def Literal.value : Literal → Value
  | .int n => .int n
  | .text s => .text s
  | .bool b => .bool b
  | .null => .null

/-- Whether a comparison holds of two values that compare in this way. -/
def BinaryOp.holds : BinaryOp → Ordering → Bool
  | .eq, o => o.isEq
  | .ne, o => !o.isEq
  | .lt, o => o.isLT
  | .gt, o => o.isGT
  | .lte, o => o.isLE
  | .gte, o => o.isGE
  | .and, _ | .or, _ => false

namespace Server

variable (sv : Server)

def binary (op : BinaryOp) (a b : Value) : Option Bool :=
  match op with
  | .and => and3 (truth a) (truth b)
  | .or => or3 (truth a) (truth b)
  | op => if a.isNull || b.isNull then none else some (op.holds (sv.compare a b))

/-- Whether a value is one of a list: unknown if it equals none and the comparison with some is unknown. -/
def isIn (v : Value) (values : List Value) : Option Bool :=
  values.foldr (fun x found => or3 (sv.binary .eq v x) found) (some false)

def negatedIf (negated : Bool) (b : Option Bool) : Option Bool :=
  if negated then b.map not else b

/-- Compares two values in a direction. -/
def rank (dir : SortDir) (a b : Value) : Ordering :=
  match a.isNull, b.isNull with
  | true, true => .eq
  | true, false => if sv.nullsFirst dir then .lt else .gt
  | false, true => if sv.nullsFirst dir then .gt else .lt
  | false, false =>
    match dir with
    | .asc => sv.compare a b
    | .desc => sv.compare b a

/-- Compares lists of values by the first difference. -/
def compareKeys : List SortDir → List Value → List Value → Ordering
  | [], _, _ => .eq
  | dir :: dirs, a, b => (sv.rank dir (a.headD .null) (b.headD .null)).then (compareKeys dirs a.tail b.tail)

/-- Whether two values belong to one group. Nulls do. -/
def same (a b : Value) : Bool :=
  if a.isNull || b.isNull then a.isNull && b.isNull else (sv.compare a b).isEq

def sameKeys (a b : List Value) : Bool :=
  a.length == b.length && (a.zip b).all fun p => sv.same p.1 p.2

/-- Adds a tuple to the group of its key. -/
def addToGroup (key : List Value) (t : Tuple) : List (List Value × List Tuple) → List (List Value × List Tuple)
  | [] => [(key, [t])]
  | (k, group) :: rest =>
    if sv.sameKeys k key then (k, group ++ [t]) :: rest else (k, group) :: addToGroup key t rest

def groupBy (keyed : List (List Value × Tuple)) : List (List Tuple) :=
  (keyed.foldl (fun groups p => sv.addToGroup p.1 p.2 groups) []).map (·.2)

/-- The least of values in the direction. -/
def extreme (dir : SortDir) : List Value → Value
  | [] => .null
  | v :: rest => rest.foldl (fun m x => if sv.rank dir x m = .lt then x else m) v

def distinctValues (values : List Value) : List Value :=
  values.foldr (fun v seen => if seen.any (sv.same v) then seen else v :: seen) []

/-- A function of its arguments. Aggregates read the arguments for every tuple of a group, and pass over nulls. -/
def call (name : String) (distinct : Bool) (args : List Value) (perTuple : List (List Value)) : Value :=
  let column := (perTuple.map (·.headD .null)).filter (!·.isNull)
  match name with
  | "LOWER" => sv.lower (args.headD .null)
  | "MIN" => sv.extreme .asc column
  | "MAX" => sv.extreme .desc column
  | "COUNT" => .int (Int64.ofNat (if distinct then sv.distinctValues column else column).length)
  | _ => .null

end Server

def Expr.isAggregate : Expr → Bool
  | .call name _ _ => name == "MIN" || name == "MAX" || name == "COUNT"
  | _ => false

def Tuple.column (t : Tuple) (table : Option String) (name : String) : Value :=
  match table with
  | some table => (((NameMap.get? t table).map fun r => Record.at_ r name)).getD .null
  | none => ((t.findSome? fun entry => NameMap.get? entry.2 name)).getD .null

/-- A column as the tuples of a group have it, which is as the first has it. -/
def columnOf (group : List Tuple) (table : Option String) (name : String) : Value :=
  ((group.head?).map fun t => t.column table name).getD .null

/-- The first `limit` after the first `offset`. -/
def bounded {α : Type} (limit offset : Option UInt64) (l : List α) : List α :=
  let rest := l.drop ((offset.map (·.toNat)).getD 0)
  match limit with
  | some n => rest.take n.toNat
  | none => rest

/-- The groups that a query answers by: those of `GROUP BY`, all tuples at once under an aggregate, or each tuple. -/
def Query.groups (q : Query) (sv : Server) (keyed : List (List Value × Tuple)) : List (List Tuple) :=
  if !q.groupBy.isEmpty then sv.groupBy keyed
  else if q.select.any (·.expr.isAggregate) then [keyed.map (·.2)]
  else keyed.map fun p => [p.2]

def Server.sortGroups (sv : Server) (dirs : List SortDir) (keyed : List (List Value × List Tuple)) :
    List (List Tuple) :=
  (keyed.insertionSort fun a b => (sv.compareKeys dirs a.1 b.1).isLE = true).map (·.2)

mutual

/-- The value of an expression for a group of tuples; outside aggregates that is for the first of them. -/
def Expr.value (sv : Server) (db : Database) (group : List Tuple) : Expr → Value
  | .column table name => columnOf group table name
  | .literal l => l.value
  | .param v => v
  | .binary op left right => ofTruth (sv.binary op (left.value sv db group) (right.value sv db group))
  | .not e => ofTruth ((truth (e.value sv db group)).map not)
  | .call name distinct args =>
    sv.call name distinct (valuesOf sv db group args) (group.map fun t => valuesOf sv db [t] args)
  | .inList e values negated =>
    ofTruth (Server.negatedIf negated (sv.isIn (e.value sv db group) (valuesOf sv db group values)))
  | .inQuery e query negated =>
    ofTruth (Server.negatedIf negated
      (sv.isIn (e.value sv db group) ((query.answer sv db).map fun r => ((r.head?).map (·.2)).getD .null)))
  | .isNull e negated => .bool ((e.value sv db group).isNull != negated)
  | .like e pattern escape negated caseInsensitive =>
    let text := e.value sv db group
    let pattern := pattern.value sv db group
    ofTruth (Server.negatedIf negated
      (if text.isNull || pattern.isNull then none else some (sv.like text pattern escape caseInsensitive)))
  | .paren e => e.value sv db group
termination_by structural e => e

def valuesOf (sv : Server) (db : Database) (group : List Tuple) : List Expr → List Value
  | [] => []
  | e :: rest => e.value sv db group :: valuesOf sv db group rest
termination_by structural es => es

def SelectItem.cell (sv : Server) (db : Database) (group : List Tuple) : SelectItem → String × Value
  | ⟨e, label⟩ => (((SelectItem.mk e label).name?).getD "", e.value sv db group)
termination_by structural item => item

def cellsOfItems (sv : Server) (db : Database) (group : List Tuple) : List SelectItem → Record
  | [] => []
  | item :: rest => item.cell sv db group :: cellsOfItems sv db group rest
termination_by structural items => items

def TableSource.records (sv : Server) (db : Database) : TableSource → List Record
  | .named table => db.rows table
  | .derived query => query.answer sv db
termination_by structural source => source

/-- The rows of a table, each under the name of the table. -/
def TableRef.entries (sv : Server) (db : Database) : TableRef → List (String × Record)
  | ⟨source, label⟩ => (source.records sv db).map fun r => (((TableRef.mk source label).name?).getD "", r)
termination_by structural table => table

def tuplesOf (sv : Server) (db : Database) : Option TableRef → List Tuple
  | none => [[]]
  | some table => (table.entries sv db).map fun entry => [entry]
termination_by structural table => table

/-- A tuple with each of the rows that the condition of a left outer join allows, or with an empty row. -/
def Join.extend (sv : Server) (db : Database) (t : Tuple) : Join → List Tuple
  | ⟨table, on⟩ =>
    let matching := (table.entries sv db).filter fun entry => truth (on.value sv db [t ++ [entry]]) == some true
    if matching.isEmpty then [t ++ [((table.name?).getD "", [])]] else matching.map fun entry => t ++ [entry]
termination_by structural join => join

def joinAll (sv : Server) (db : Database) (tuples : List Tuple) : List Join → List Tuple
  | [] => tuples
  | join :: rest => joinAll sv db (tuples.flatMap fun t => join.extend sv db t) rest
termination_by structural joins => joins

def holdsIn (sv : Server) (db : Database) (t : Tuple) : Option Expr → Bool
  | none => true
  | some e => truth (e.value sv db [t]) == some true
termination_by structural e => e

def OrderItem.key (sv : Server) (db : Database) (group : List Tuple) : OrderItem → Value
  | ⟨e, _⟩ => e.value sv db group
termination_by structural item => item

def orderKeys (sv : Server) (db : Database) (group : List Tuple) : List OrderItem → List Value
  | [] => []
  | item :: rest => item.key sv db group :: orderKeys sv db group rest
termination_by structural items => items

/-- The rows that a query answers. -/
def Query.answer (sv : Server) (db : Database) : Query → List Record
  | ⟨select, table, joins, condition, groupBy, orderBy, bounds⟩ =>
    let q : Query := ⟨select, table, joins, condition, groupBy, orderBy, bounds⟩
    let kept := (joinAll sv db (tuplesOf sv db table) joins).filter fun t => holdsIn sv db t condition
    let groups := q.groups sv ((sv.arrange q kept).map fun t => (valuesOf sv db [t] groupBy, t))
    let sorted := sv.sortGroups (orderBy.map fun o => o.dir.getD .asc)
      (groups.map fun group => (orderKeys sv db group orderBy, group))
    (bounded q.limit q.offset sorted).map fun group => cellsOfItems sv db group select
termination_by structural query => query

end

end RelQuery.Sql
