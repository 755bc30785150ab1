import RelQuery.Sql.Printer

/-!
# Queries without their parameters

Masking puts one value in place of every parameter. What is left of a query is all that its text shows: queries that
are the same when masked have the same text, and as many parameters.
-/

namespace RelQuery.Sql

mutual

def Expr.masked : Expr → Expr
  | .column table name => .column table name
  | .literal l => .literal l
  | .param _ => .param .null
  | .binary op left right => .binary op left.masked right.masked
  | .not e => .not e.masked
  | .call name distinct args => .call name distinct (exprsMasked args)
  | .inList e values negated => .inList e.masked (exprsMasked values) negated
  | .inQuery e query negated => .inQuery e.masked query.masked negated
  | .isNull e negated => .isNull e.masked negated
  | .like e pattern escape negated caseInsensitive => .like e.masked pattern.masked escape negated caseInsensitive
  | .paren e => .paren e.masked
termination_by structural e => e

def exprsMasked : List Expr → List Expr
  | [] => []
  | e :: rest => e.masked :: exprsMasked rest
termination_by structural es => es

def SelectItem.masked : SelectItem → SelectItem
  | ⟨e, label⟩ => ⟨e.masked, label⟩
termination_by structural item => item

def selectMasked : List SelectItem → List SelectItem
  | [] => []
  | item :: rest => item.masked :: selectMasked rest
termination_by structural items => items

def TableSource.masked : TableSource → TableSource
  | .named table => .named table
  | .derived query => .derived query.masked
termination_by structural source => source

def TableRef.masked : TableRef → TableRef
  | ⟨source, label⟩ => ⟨source.masked, label⟩
termination_by structural table => table

def optionalTableMasked : Option TableRef → Option TableRef
  | none => none
  | some table => some table.masked
termination_by structural table => table

def Join.masked : Join → Join
  | ⟨table, on⟩ => ⟨table.masked, on.masked⟩
termination_by structural join => join

def joinsMasked : List Join → List Join
  | [] => []
  | join :: rest => join.masked :: joinsMasked rest
termination_by structural joins => joins

def optionalExprMasked : Option Expr → Option Expr
  | none => none
  | some e => some e.masked
termination_by structural e => e

def OrderItem.masked : OrderItem → OrderItem
  | ⟨e, dir⟩ => ⟨e.masked, dir⟩
termination_by structural item => item

def orderMasked : List OrderItem → List OrderItem
  | [] => []
  | item :: rest => item.masked :: orderMasked rest
termination_by structural items => items

def Query.masked : Query → Query
  | ⟨select, table, joins, condition, groupBy, orderBy, bounds⟩ =>
    ⟨selectMasked select, optionalTableMasked table, joinsMasked joins, optionalExprMasked condition,
      exprsMasked groupBy, orderMasked orderBy, bounds⟩
termination_by structural query => query

end

def Token.masked : Token → Token
  | .param _ => .param .null
  | t => t

theorem exprsMasked_eq_map (es : List Expr) : exprsMasked es = es.map Expr.masked := by
  induction es with
  | nil => rfl
  | cons e rest ih => rw [exprsMasked, ih, List.map_cons]

theorem optionalExprMasked_eq_map (e : Option Expr) : optionalExprMasked e = e.map Expr.masked := by
  cases e <;> rfl

theorem isEmpty_exprsMasked (es : List Expr) : (exprsMasked es).isEmpty = es.isEmpty := by
  cases es <;> rfl

theorem map_masked_labelTokens (label : Option String) :
    (labelTokens label).map Token.masked = labelTokens label := by
  cases label <;> rfl

theorem map_masked_negationTokens (negated : Bool) :
    (negationTokens negated).map Token.masked = negationTokens negated := by
  cases negated <;> rfl

theorem map_masked_maybeLowered (lowered : Bool) (tokens : List Token) :
    (maybeLowered lowered tokens).map Token.masked = maybeLowered lowered (tokens.map Token.masked) := by
  cases lowered
  · rfl
  · simp only [maybeLowered, if_true, List.map_append, List.map_cons]
    rfl

theorem map_masked_clauseTokens (keyword : Token) (tokens : List Token) :
    (clauseTokens keyword tokens).map Token.masked = clauseTokens keyword.masked (tokens.map Token.masked) := by
  unfold clauseTokens
  rw [List.isEmpty_map]
  split <;> rfl

theorem map_masked_pageTokens (d : Dialect) (limit offset : Option UInt64) :
    (pageTokens d limit offset).map Token.masked = pageTokens d limit offset := by
  rcases limit with - | l <;> rcases offset with - | o
  · rfl
  · cases d <;> rfl
  · rfl
  · rfl

theorem map_masked_boundsTokens (d : Dialect) (bounds : Option LimitOffset) :
    (boundsTokens d bounds).map Token.masked = boundsTokens d bounds := by
  cases bounds with
  | none => rfl
  | some bounds => exact congrArg (Token.newline :: ·) (map_masked_pageTokens d bounds.limit bounds.offset)

section

attribute [local simp] Token.masked map_masked_labelTokens map_masked_negationTokens map_masked_maybeLowered
  map_masked_clauseTokens map_masked_boundsTokens

mutual

theorem Expr.tokens_masked (d : Dialect) : ∀ e : Expr, e.masked.tokens d = (e.tokens d).map Token.masked
  | .column (some _) _ => rfl
  | .column none _ => rfl
  | .literal l => by cases l <;> rfl
  | .param _ => rfl
  | .binary op left right => by
    have hleft := Expr.tokens_masked d left
    have hright := Expr.tokens_masked d right
    cases op <;> simp [Expr.masked, Expr.tokens, BinaryOp.token, hleft, hright]
  | .not e => by
    have he := Expr.tokens_masked d e
    simp [Expr.masked, Expr.tokens, he]
  | .call name distinct args => by
    have hargs := exprsTokens_masked d args
    cases distinct <;> simp [Expr.masked, Expr.tokens, hargs]
  | .inList e values negated => by
    have he := Expr.tokens_masked d e
    have hvalues := exprsTokens_masked d values
    simp only [Expr.masked, Expr.tokens, isEmpty_exprsMasked]
    split
    · cases negated <;> rfl
    · simp [he, hvalues]
  | .inQuery e query negated => by
    have he := Expr.tokens_masked d e
    have hquery := Query.tokens_masked d query
    simp [Expr.masked, Expr.tokens, he, hquery]
  | .isNull e negated => by
    have he := Expr.tokens_masked d e
    cases negated <;> simp [Expr.masked, Expr.tokens, he]
  | .like e pattern escape negated caseInsensitive => by
    have he := Expr.tokens_masked d e
    have hpattern := Expr.tokens_masked d pattern
    simp only [Expr.masked, Expr.tokens]
    split <;> simp [he, hpattern]
  | .paren e => by
    have he := Expr.tokens_masked d e
    simp [Expr.masked, Expr.tokens, he]
termination_by structural e => e

theorem exprsTokens_masked (d : Dialect) : ∀ es, exprsTokens d (exprsMasked es) = (exprsTokens d es).map Token.masked
  | [] => rfl
  | e :: rest => by
    have he := Expr.tokens_masked d e
    have hrest := moreExprsTokens_masked d rest
    simp [exprsMasked, exprsTokens, he, hrest]
termination_by structural es => es

theorem moreExprsTokens_masked (d : Dialect) :
    ∀ es, moreExprsTokens d (exprsMasked es) = (moreExprsTokens d es).map Token.masked
  | [] => rfl
  | e :: rest => by
    have he := Expr.tokens_masked d e
    have hrest := moreExprsTokens_masked d rest
    simp [exprsMasked, moreExprsTokens, he, hrest]
termination_by structural es => es

theorem SelectItem.tokens_masked (d : Dialect) :
    ∀ item : SelectItem, item.masked.tokens d = (item.tokens d).map Token.masked
  | ⟨e, label⟩ => by
    have he := Expr.tokens_masked d e
    simp [SelectItem.masked, SelectItem.tokens, he]
termination_by structural item => item

theorem selectTokens_masked (d : Dialect) :
    ∀ items, selectTokens d (selectMasked items) = (selectTokens d items).map Token.masked
  | [] => rfl
  | item :: rest => by
    have hitem := SelectItem.tokens_masked d item
    have hrest := moreSelectTokens_masked d rest
    simp [selectMasked, selectTokens, hitem, hrest]
termination_by structural items => items

theorem moreSelectTokens_masked (d : Dialect) :
    ∀ items, moreSelectTokens d (selectMasked items) = (moreSelectTokens d items).map Token.masked
  | [] => rfl
  | item :: rest => by
    have hitem := SelectItem.tokens_masked d item
    have hrest := moreSelectTokens_masked d rest
    simp [selectMasked, moreSelectTokens, hitem, hrest]
termination_by structural items => items

theorem TableSource.tokens_masked (d : Dialect) :
    ∀ source : TableSource, source.masked.tokens d = (source.tokens d).map Token.masked
  | .named _ => rfl
  | .derived query => by
    have hquery := Query.tokens_masked d query
    simp [TableSource.masked, TableSource.tokens, hquery]
termination_by structural source => source

theorem TableRef.tokens_masked (d : Dialect) :
    ∀ table : TableRef, table.masked.tokens d = (table.tokens d).map Token.masked
  | ⟨source, label⟩ => by
    have hsource := TableSource.tokens_masked d source
    simp [TableRef.masked, TableRef.tokens, hsource]
termination_by structural table => table

theorem optionalTableTokens_masked (d : Dialect) :
    ∀ table, optionalTableTokens d (optionalTableMasked table) = (optionalTableTokens d table).map Token.masked
  | none => rfl
  | some table => by
    have htable := TableRef.tokens_masked d table
    simp [optionalTableMasked, optionalTableTokens, htable]
termination_by structural table => table

theorem Join.tokens_masked (d : Dialect) : ∀ join : Join, join.masked.tokens d = (join.tokens d).map Token.masked
  | ⟨table, on⟩ => by
    have htable := TableRef.tokens_masked d table
    have hon := Expr.tokens_masked d on
    simp [Join.masked, Join.tokens, htable, hon]
termination_by structural join => join

theorem joinsTokens_masked (d : Dialect) :
    ∀ joins, joinsTokens d (joinsMasked joins) = (joinsTokens d joins).map Token.masked
  | [] => rfl
  | join :: rest => by
    have hjoin := Join.tokens_masked d join
    have hrest := joinsTokens_masked d rest
    simp [joinsMasked, joinsTokens, hjoin, hrest]
termination_by structural joins => joins

theorem optionalExprTokens_masked (d : Dialect) :
    ∀ e, optionalExprTokens d (optionalExprMasked e) = (optionalExprTokens d e).map Token.masked
  | none => rfl
  | some e => Expr.tokens_masked d e
termination_by structural e => e

theorem OrderItem.tokens_masked (d : Dialect) :
    ∀ item : OrderItem, item.masked.tokens d = (item.tokens d).map Token.masked
  | ⟨e, dir⟩ => by
    have he := Expr.tokens_masked d e
    rcases dir with - | ⟨⟨⟩⟩ <;> simp [OrderItem.masked, OrderItem.tokens, SortDir.token, he]
termination_by structural item => item

theorem orderTokens_masked (d : Dialect) :
    ∀ items, orderTokens d (orderMasked items) = (orderTokens d items).map Token.masked
  | [] => rfl
  | item :: rest => by
    have hitem := OrderItem.tokens_masked d item
    have hrest := moreOrderTokens_masked d rest
    simp [orderMasked, orderTokens, hitem, hrest]
termination_by structural items => items

theorem moreOrderTokens_masked (d : Dialect) :
    ∀ items, moreOrderTokens d (orderMasked items) = (moreOrderTokens d items).map Token.masked
  | [] => rfl
  | item :: rest => by
    have hitem := OrderItem.tokens_masked d item
    have hrest := moreOrderTokens_masked d rest
    simp [orderMasked, moreOrderTokens, hitem, hrest]
termination_by structural items => items

theorem Query.tokens_masked (d : Dialect) : ∀ q : Query, q.masked.tokens d = (q.tokens d).map Token.masked
  | ⟨select, table, joins, condition, groupBy, orderBy, bounds⟩ => by
    have hselect := selectTokens_masked d select
    have htable := optionalTableTokens_masked d table
    have hjoins := joinsTokens_masked d joins
    have hcondition := optionalExprTokens_masked d condition
    have hgroupBy := exprsTokens_masked d groupBy
    have horderBy := orderTokens_masked d orderBy
    simp [Query.masked, Query.tokens, hselect, htable, hjoins, hcondition, hgroupBy, horderBy]
termination_by structural query => query

end

end

/-- The text of a token shows the number of a parameter, not its value. -/
theorem Token.text_masked (d : Dialect) (index : Nat) (t : Token) : t.masked.text d index = t.text d index := by
  cases t <;> rfl

theorem Token.isSome_param?_masked (t : Token) : t.masked.param?.isSome = t.param?.isSome := by
  cases t <;> rfl

theorem renderFrom_masked (d : Dialect) (tokens : List Token) :
    ∀ count, renderFrom d count (tokens.map Token.masked) = renderFrom d count tokens := by
  induction tokens with
  | nil => exact fun _ => rfl
  | cons t rest ih =>
    intro count
    rw [List.map_cons, renderFrom, renderFrom, Token.isSome_param?_masked]
    rw [Token.text_masked, ih]

theorem length_paramsOf (tokens : List Token) : (paramsOf tokens).length = tokens.countP (·.param?.isSome) :=
  List.length_filterMap_eq_countP

theorem length_paramsOf_masked (tokens : List Token) :
    (paramsOf (tokens.map Token.masked)).length = (paramsOf tokens).length := by
  rw [length_paramsOf, length_paramsOf, List.countP_map]
  exact congrFun (congrArg List.countP (funext Token.isSome_param?_masked)) tokens

/-- The same text, with as many parameters. -/
structure Statement.SameText (a b : Statement) : Prop where
  sql : a.sql = b.sql
  params : a.params.length = b.params.length

theorem Query.sameText_of_masked {q q' : Query} (h : q.masked = q'.masked) (d : Dialect) :
    (q.statement d).SameText (q'.statement d) := by
  have htokens : (q.tokens d).map Token.masked = (q'.tokens d).map Token.masked := by
    rw [← Query.tokens_masked, h, Query.tokens_masked]
  constructor
  · change renderFrom d 0 (q.tokens d) = renderFrom d 0 (q'.tokens d)
    rw [← renderFrom_masked, htokens, renderFrom_masked]
  · change (paramsOf (q.tokens d)).length = (paramsOf (q'.tokens d)).length
    rw [← length_paramsOf_masked, htokens, length_paramsOf_masked]

end RelQuery.Sql
