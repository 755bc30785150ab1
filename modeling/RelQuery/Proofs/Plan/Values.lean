import RelQuery.Proofs.Plan.Kept

/-!
# Values in statements

Columns show no values, so the parameters of a statement without a page inside are those of its filters.
-/

namespace RelQuery

open Sql

namespace Sql

theorem paramsOf_append (a b : List Token) : paramsOf (a ++ b) = paramsOf a ++ paramsOf b :=
  List.filterMap_append

theorem paramsOf_cons {t : Token} (h : t.param? = none) (rest : List Token) : paramsOf (t :: rest) = paramsOf rest :=
  List.filterMap_cons_none h

/-- The expression shows no value. -/
def Expr.Valueless (e : Expr) : Prop := ∀ d, paramsOf (e.tokens d) = []

theorem valueless_col {table name : String} : (Expr.col table name).Valueless := fun _ => rfl

theorem valueless_eq {left right : Expr} (hleft : left.Valueless) (hright : right.Valueless) :
    (Expr.binary .eq left right).Valueless := by
  intro d
  rw [Expr.tokens, paramsOf_append, hleft d]
  exact hright d

variable {d : Dialect}

theorem paramsOf_label (label : Option String) : paramsOf (labelTokens label) = [] := by
  cases label <;> rfl

theorem paramsOf_clause {keyword : Token} (hkeyword : keyword.param? = none) (tokens : List Token) :
    paramsOf (clauseTokens keyword tokens) = paramsOf tokens := by
  unfold clauseTokens
  split
  · rename_i hempty
    rw [List.isEmpty_iff.mp hempty]
  · rw [paramsOf_cons rfl, paramsOf_cons hkeyword, paramsOf_cons rfl]

theorem paramsOf_item {item : SelectItem} (h : item.expr.Valueless) : paramsOf (item.tokens d) = [] := by
  obtain ⟨e, label⟩ := item
  rw [SelectItem.tokens, paramsOf_append, h d, paramsOf_label]
  rfl

theorem paramsOf_select {items : List SelectItem} (h : ∀ item ∈ items, item.expr.Valueless) :
    paramsOf (selectTokens d items) = [] := by
  have hmore : ∀ items : List SelectItem, (∀ item ∈ items, item.expr.Valueless) →
      paramsOf (moreSelectTokens d items) = [] := by
    intro items h
    induction items with
    | nil => rfl
    | cons item rest ih =>
      obtain ⟨hitem, hrest⟩ := List.forall_mem_cons.mp h
      rw [moreSelectTokens, List.cons_append, List.cons_append, List.cons_append, paramsOf_cons rfl, paramsOf_cons rfl,
        paramsOf_cons rfl, paramsOf_append, paramsOf_item hitem, ih hrest]
      rfl
  cases items with
  | nil => rfl
  | cons item rest =>
    obtain ⟨hitem, hrest⟩ := List.forall_mem_cons.mp h
    rw [selectTokens, List.cons_append, List.cons_append, paramsOf_cons rfl, paramsOf_cons rfl, paramsOf_append,
      paramsOf_item hitem, hmore rest hrest]
    rfl

theorem paramsOf_joins {joins : List Join} (h : ∀ j ∈ joins, ∃ table label left right,
    j = leftJoin table label left right ∧ left.Valueless ∧ right.Valueless) : paramsOf (joinsTokens d joins) = [] := by
  induction joins with
  | nil => rfl
  | cons join rest ih =>
    obtain ⟨⟨table, label, left, right, rfl, hleft, hright⟩, hrest⟩ := List.forall_mem_cons.mp h
    have hon : paramsOf ((Expr.binary .eq left right).tokens d) = [] := valueless_eq hleft hright d
    rw [joinsTokens, List.cons_append, paramsOf_cons rfl, paramsOf_append, ih hrest, List.append_nil]
    exact hon

theorem paramsOf_orderItem {item : OrderItem} (h : item.expr.Valueless) : paramsOf (item.tokens d) = [] := by
  obtain ⟨e, dir⟩ := item
  have he : paramsOf (e.tokens d) = [] := h d
  unfold OrderItem.tokens
  rw [paramsOf_append, he]
  rcases dir with - | - | - <;> rfl

theorem paramsOf_order {items : List OrderItem} (h : ∀ item ∈ items, item.expr.Valueless) :
    paramsOf (orderTokens d items) = [] := by
  have hmore : ∀ items : List OrderItem, (∀ item ∈ items, item.expr.Valueless) →
      paramsOf (moreOrderTokens d items) = [] := by
    intro items h
    induction items with
    | nil => rfl
    | cons item rest ih =>
      obtain ⟨hitem, hrest⟩ := List.forall_mem_cons.mp h
      rw [moreOrderTokens, List.cons_append, List.cons_append, paramsOf_cons rfl, paramsOf_cons rfl, paramsOf_append,
        paramsOf_orderItem hitem, ih hrest]
      rfl
  cases items with
  | nil => rfl
  | cons item rest =>
    obtain ⟨hitem, hrest⟩ := List.forall_mem_cons.mp h
    rw [orderTokens, paramsOf_append, paramsOf_orderItem hitem, hmore rest hrest]
    rfl

theorem paramsOf_inList {e : Expr} (he : e.Valueless) (values : List Value) :
    paramsOf ((Expr.inList e (values.map .param) false).tokens d) = values := by
  have hmore : ∀ values : List Value, paramsOf (moreExprsTokens d (values.map .param)) = values := by
    intro values
    induction values with
    | nil => rfl
    | cons v rest ih => exact congrArg (v :: ·) ih
  cases values with
  | nil => rfl
  | cons v rest =>
    rw [List.map_cons, Expr.tokens, List.isEmpty_cons, if_neg Bool.false_ne_true, negationTokens,
      if_neg Bool.false_ne_true, List.append_nil, List.append_assoc, paramsOf_append, he d, List.nil_append]
    change paramsOf (exprsTokens d (.param v :: rest.map .param) ++ [.rparen]) = v :: rest
    rw [paramsOf_append, exprsTokens]
    change (v :: paramsOf (moreExprsTokens d (rest.map .param))) ++ [] = v :: rest
    rw [hmore, List.append_nil]

/-- The clauses around the condition show no values. -/
theorem paramsOf_query {q : Query} {table : String} (hselect : ∀ item ∈ q.select, item.expr.Valueless)
    (htable : q.table = some (.ofTable table)) (hjoins : ∀ j ∈ q.joins, ∃ table label left right,
      j = leftJoin table label left right ∧ left.Valueless ∧ right.Valueless)
    (hgroup : q.groupBy = []) (horder : ∀ item ∈ q.orderBy, item.expr.Valueless) (hbounds : q.bounds = none) :
    paramsOf (q.tokens d) = paramsOf (optionalExprTokens d q.condition) := by
  obtain ⟨select, _, joins, condition, _, orderBy, _⟩ := q
  dsimp only at *
  subst htable hgroup hbounds
  unfold Query.tokens
  have hfrom : paramsOf (clauseTokens .from_ (optionalTableTokens d (some (.ofTable table)))) = [] := rfl
  rw [boundsTokens, List.append_nil, paramsOf_append, paramsOf_append, paramsOf_append, paramsOf_append,
    paramsOf_append, paramsOf_cons rfl, paramsOf_select hselect, hfrom, paramsOf_joins hjoins,
    paramsOf_clause rfl, paramsOf_clause rfl, paramsOf_clause rfl, paramsOf_order horder, List.append_nil]
  exact List.append_nil _

end Sql

variable {p : Prepared}

theorem valueless_columnItems {table : String} {columns : List SelectedColumn} :
    ∀ item ∈ columnItems table columns, item.expr.Valueless :=
  List.forall_mem_map.mpr fun _ _ => valueless_col

theorem valueless_items (node : JoinNode) : ∀ item ∈ node.items, item.expr.Valueless := by
  induction node using JoinNode.children_induction with
  | step node ih =>
    obtain ⟨relation, name, path, target, table, toMany, isPartial, columns, children⟩ := node
    rw [JoinNode.items, nodesItems_eq_flatMap]
    refine List.forall_mem_append.mpr ⟨valueless_columnItems, fun item hitem => ?_⟩
    obtain ⟨child, hchild, hitem⟩ := List.mem_flatMap.mp hitem
    exact ih child hchild item hitem

theorem valueless_selectList (tree : JoinTree) (table : String) :
    ∀ item ∈ tree.selectList table, item.expr.Valueless := by
  rw [JoinTree.selectList, nodesItems_eq_flatMap]
  refine List.forall_mem_append.mpr ⟨valueless_columnItems, fun item hitem => ?_⟩
  obtain ⟨node, -, hitem⟩ := List.mem_flatMap.mp hitem
  exact valueless_items node item hitem

theorem valueless_joins {joins : List Join} (h : p.joins = .ok joins) : ∀ j ∈ joins, ∃ table label left right,
    j = leftJoin table label left right ∧ left.Valueless ∧ right.Valueless := by
  intro j hj
  obtain ⟨table, label, source, c, target, d, rfl⟩ := eq_leftJoin_of_joins h j hj
  exact ⟨table, label, _, _, rfl, valueless_col, valueless_col⟩

theorem valueless_orderBy {items : List OrderItem} (h : p.orderBy = .ok items) :
    ∀ item ∈ items, item.expr.Valueless := by
  unfold Prepared.orderBy at h
  obtain ⟨asked, hasked, h⟩ := bind_eq_ok.mp h
  have hstart : ∀ item ∈ p.addRootTieBreak asked, item.expr.Valueless := by
    refine forall_mem_addTieBreak (fun item hitem => ?_) (valueless_col)
    obtain ⟨o, -, hitem⟩ := exists_of_mem_forall₂ (mapM_eq_ok.mp hasked) hitem
    obtain ⟨e, he, rfl⟩ := map_eq_ok.mp hitem
    obtain ⟨table, -, rfl⟩ := map_eq_ok.mp he
    exact valueless_col
  refine foldlM_keeps (P := fun items => ∀ item ∈ items, item.expr.Valueless) ?_ hstart h
  intro r _ before after hbefore hstep
  obtain ⟨table, -, hstep⟩ := bind_eq_ok.mp hstep
  cases hstep
  exact forall_mem_addTieBreak hbefore (valueless_col)

/-- A statement for one list lookup, without bounds, has the values of the list as its parameters. -/
theorem params_of_isIn {settings : Settings} {planned : PlannedQuery} (hplan : p.plan settings = .ok planned)
    (hlimit : p.request.limit = none) (hoffset : p.request.offset = none) {lookup : String} {path : Path}
    {column : String} {values : List Value}
    (hfilters : p.bound.filters = [.cond ⟨lookup, path, column, .isIn, .many values⟩]) (d : Dialect) :
    (planned.statement d).params = values := by
  obtain ⟨joins, predicates, orderBy, -, hjoins, hpredicates, horderBy, hquery⟩ := plan_eq_ok hplan
  have hunpaged : p.paginatesRoot = false := by
    simp [Prepared.paginatesRoot, Request.isPaginated, hlimit, hoffset]
  have hpredicate : ∃ table, predicates.map (·.expr) = [.inList (.col table column) (values.map .param) false] := by
    unfold Prepared.predicates at hpredicates
    rw [hfilters, List.mapM_cons, List.mapM_nil] at hpredicates
    obtain ⟨pred, hpred, hpredicates⟩ := bind_eq_ok.mp hpredicates
    cases hpredicates
    obtain ⟨e, he, rfl⟩ := map_eq_ok.mp hpred
    change BoundCond.expr _ _ _ = .ok e at he
    unfold BoundCond.expr at he
    split at he
    · cases he
    · rename_i table _
      cases he
      exact ⟨table, rfl⟩
  obtain ⟨table, hexpr⟩ := hpredicate
  have hquery := query_of_unpaged hquery hunpaged
  rw [hexpr, hlimit, hoffset] at hquery
  change paramsOf (planned.query.tokens d) = values
  rw [hquery, paramsOf_query (valueless_selectList planned.tree p.rootTable) rfl (valueless_joins hjoins) rfl
    (valueless_orderBy horderBy) rfl]
  exact paramsOf_inList valueless_col values

end RelQuery
