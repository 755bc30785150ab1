import RelQuery.Proofs.NameMap
import RelQuery.Schema
import RelQuery.Sql.Syntax

/-!
# Well-scoped queries

Which columns a query may read: those of the tables of its own `FROM` and `JOIN` list, and in the condition of a join
those of the tables up to this one. A table offers the columns of the entity that its name stands for, a derived table
the columns that it selects. Nothing is inherited from an outer query.
-/

namespace RelQuery.Sql

mutual

/-- The columns that an expression reads, with the table that each is qualified by. Those of a query on the right of
`IN` are not its own. -/
def Expr.columns : Expr → List (Option String × String)
  | .column table name => [(table, name)]
  | .literal _ => []
  | .param _ => []
  | .binary _ left right => left.columns ++ right.columns
  | .not e => e.columns
  | .call _ _ args => columnsOf args
  | .inList e values _ => e.columns ++ columnsOf values
  | .inQuery e _ _ => e.columns
  | .isNull e _ => e.columns
  | .like e pattern _ _ _ => e.columns ++ pattern.columns
  | .paren e => e.columns
termination_by structural e => e

def columnsOf : List Expr → List (Option String × String)
  | [] => []
  | e :: rest => e.columns ++ columnsOf rest
termination_by structural es => es

end

mutual

/-- The queries on the right of `IN` in an expression. -/
def Expr.queries : Expr → List Query
  | .column _ _ => []
  | .literal _ => []
  | .param _ => []
  | .binary _ left right => left.queries ++ right.queries
  | .not e => e.queries
  | .call _ _ args => queriesOf args
  | .inList e values _ => e.queries ++ queriesOf values
  | .inQuery e query _ => query :: e.queries
  | .isNull e _ => e.queries
  | .like e pattern _ _ _ => e.queries ++ pattern.queries
  | .paren e => e.queries
termination_by structural e => e

def queriesOf : List Expr → List Query
  | [] => []
  | e :: rest => e.queries ++ queriesOf rest
termination_by structural es => es

end

/-- The name that a table goes by. -/
def TableRef.name? (t : TableRef) : Option String :=
  match t.label, t.source with
  | some label, _ => some label
  | none, .named table => some table
  | none, .derived _ => none

/-- The query that a table is derived from. -/
def TableRef.query? (t : TableRef) : Option Query :=
  match t.source with
  | .named _ => none
  | .derived query => some query

/-- The name of a selected column, if it has one. -/
def SelectItem.name? (item : SelectItem) : Option String :=
  match item.label, item.expr with
  | some label, _ => some label
  | none, .column _ name => some name
  | none, _ => none

namespace Query

/-- The tables of the `FROM` and `JOIN` list. -/
def tables (q : Query) : List TableRef := q.table.toList ++ q.joins.map (·.table)

/-- The expressions that are selected, and those of `WHERE`, `GROUP BY` and `ORDER BY`. -/
def exprs (q : Query) : List Expr :=
  q.select.map (·.expr) ++ q.condition.toList ++ q.groupBy ++ q.orderBy.map (·.expr)

/-- `Nested q' q`: the query `q'` is `q` or nested in it, as a derived table or on the right of `IN`. -/
inductive Nested : Query → Query → Prop where
  | self (q : Query) : Nested q q
  | derived {q q' inner : Query} {t : TableRef} (ht : t ∈ q.tables) (hq : t.query? = some inner)
      (h : Nested q' inner) : Nested q' q
  | inside {q q' inner : Query} {e : Expr} (he : e ∈ q.exprs ++ q.joins.map (·.on)) (hq : inner ∈ e.queries)
      (h : Nested q' inner) : Nested q' q

end Query

variable (s : Schema) (names : List (String × EntityId))

/-- The table has a column of this name: one of the entity that the name of the table stands for, or one that the query
it is derived from selects. -/
def TableRef.Offers (t : TableRef) (column : String) : Prop :=
  match t.source with
  | .named table => ∃ name id, t.name? = some name ∧ NameMap.get? names name = some id ∧
      (s.entity id).table = table ∧ column ∈ (s.entity id).columns.map (·.dbName)
  | .derived query => some column ∈ query.select.map (·.name?)

/-- One of the tables goes by the name and has the column. -/
def Provides (tables : List TableRef) (table column : String) : Prop :=
  ∃ t ∈ tables, t.name? = some table ∧ t.Offers s names column

/-- The expression reads columns of these tables only, each qualified by the name of its table. -/
def Expr.ReadsFrom (tables : List TableRef) (e : Expr) : Prop :=
  ∀ ref ∈ e.columns, ∃ table, ref.1 = some table ∧ Provides s names tables table ref.2

/-- Each condition reads from the tables up to its own. -/
def JoinsScoped : List TableRef → List Join → Prop
  | _, [] => True
  | tables, j :: rest => j.on.ReadsFrom s names (tables ++ [j.table]) ∧ JoinsScoped (tables ++ [j.table]) rest

/-- The tables of a query have different names, and it reads nothing else. -/
structure Query.WellScoped (q : Query) : Prop where
  distinct : (q.tables.map (·.name?)).Nodup
  conditions : JoinsScoped s names q.table.toList q.joins
  exprs : ∀ e ∈ q.exprs, e.ReadsFrom s names q.tables

/-- The query and all nested in it are well scoped. -/
def Query.Scoped (q : Query) : Prop :=
  ∀ q', Nested q' q → q'.WellScoped s names

variable {s names} {tables more : List TableRef}

theorem Query.Scoped.of_parts {q : Query} (h : q.WellScoped s names)
    (tables : ∀ t ∈ q.tables, ∀ inner, t.query? = some inner → inner.Scoped s names)
    (exprs : ∀ e ∈ q.exprs ++ q.joins.map (·.on), ∀ inner ∈ e.queries, inner.Scoped s names) : q.Scoped s names := by
  intro q' hq'
  cases hq' with
  | self => exact h
  | derived ht hq hn => exact tables _ ht _ hq q' hn
  | inside he hq hn => exact exprs _ he _ hq q' hn

theorem Provides.append {table column : String} (h : Provides s names tables table column) :
    Provides s names (tables ++ more) table column := by
  obtain ⟨t, ht, hname, hoffers⟩ := h
  exact ⟨t, List.mem_append_left _ ht, hname, hoffers⟩

theorem joinsScoped_append {js ks : List Join} :
    JoinsScoped s names tables (js ++ ks) ↔
      JoinsScoped s names tables js ∧ JoinsScoped s names (tables ++ js.map (·.table)) ks := by
  induction js generalizing tables with
  | nil => simp [JoinsScoped]
  | cons j rest ih =>
    rw [List.cons_append, JoinsScoped, JoinsScoped, ih, List.map_cons, and_assoc, List.append_assoc]
    rfl

theorem readsFrom_col {table column : String} :
    (Expr.col table column).ReadsFrom s names tables ↔ Provides s names tables table column := by
  constructor
  · intro h
    obtain ⟨_, he, hp⟩ := h _ (List.mem_singleton_self _)
    cases he
    exact hp
  · intro h ref href
    rw [List.mem_singleton.mp href]
    exact ⟨table, rfl, h⟩

theorem readsFrom_binary {op : BinaryOp} {left right : Expr} (hl : left.ReadsFrom s names tables)
    (hr : right.ReadsFrom s names tables) : (Expr.binary op left right).ReadsFrom s names tables := by
  intro ref href
  rcases List.mem_append.mp href with h | h
  · exact hl ref h
  · exact hr ref h

namespace Expr

variable {α : Type} {f : Expr → List α} {op : BinaryOp} {e : Expr} {es : List Expr}

theorem all?_eq_none : all? es = none ↔ es = [] := by
  cases es <;> simp [all?, joined?]

theorem any?_eq_none : any? es = none ↔ es = [] := by
  cases es <;> simp [any?, joined?]

/-- What does not look at parentheses does not change with those that are added. -/
theorem apply_parenIf {β : Type} {f : Expr → β} (paren : ∀ e, f (.paren e) = f e) (op : BinaryOp) (e : Expr) :
    f (parenIf op e) = f e := by
  cases e with
  | binary o left right =>
    rw [parenIf]
    split
    · exact paren _
    · rfl
  | _ => rfl

theorem collect_joined? (binary : ∀ op left right, f (.binary op left right) = f left ++ f right)
    (h : joined? op es = some e) : f e = es.flatMap f := by
  have hfold : ∀ (rest : List Expr) (first : Expr), f (rest.foldl (.binary op) first) = f first ++ rest.flatMap f := by
    intro rest
    induction rest with
    | nil => simp
    | cons a rest ih =>
      intro first
      rw [List.foldl_cons, ih, binary, List.flatMap_cons, List.append_assoc]
  cases es with
  | nil => cases h
  | cons first rest =>
    cases h
    exact hfold rest first

theorem collect_all? (binary : ∀ op left right, f (.binary op left right) = f left ++ f right)
    (paren : ∀ e, f (.paren e) = f e) (h : all? es = some e) : f e = es.flatMap f := by
  rw [collect_joined? binary h, List.flatMap_map]
  simp only [apply_parenIf paren]

theorem collect_any? (binary : ∀ op left right, f (.binary op left right) = f left ++ f right)
    (paren : ∀ e, f (.paren e) = f e) (h : any? es = some e) : f e = es.flatMap f := by
  rw [collect_joined? binary h, List.flatMap_map]
  simp only [apply_parenIf paren]

theorem columns_all? (h : all? es = some e) : e.columns = es.flatMap columns :=
  collect_all? (fun _ _ _ => rfl) (fun _ => rfl) h

theorem queries_all? (h : all? es = some e) : e.queries = es.flatMap queries :=
  collect_all? (fun _ _ _ => rfl) (fun _ => rfl) h

theorem columns_any? (h : any? es = some e) : e.columns = es.flatMap columns :=
  collect_any? (fun _ _ _ => rfl) (fun _ => rfl) h

theorem queries_any? (h : any? es = some e) : e.queries = es.flatMap queries :=
  collect_any? (fun _ _ _ => rfl) (fun _ => rfl) h

end Expr

end RelQuery.Sql
