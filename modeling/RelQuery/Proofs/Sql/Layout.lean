import RelQuery.Sql.Printer

/-!
# How tokens are laid out

In the tokens of a query every parenthesis is closed, and no two tokens meet whose texts could be read as one:
between them stands a blank, a comma or a parenthesis, or the dot of a qualified name.
-/

namespace RelQuery.Sql

namespace Token

/-- Whether a token only keeps apart its neighbours. -/
def isGap : Token → Bool
  | space | newline | comma => true
  | indent depth => depth != 0
  | _ => false

/-- Whether a token is read by itself, once it is kept apart from the next one. -/
def isWhole : Token → Bool
  | space | newline | comma | indent _ | lparen | rparen | dot => false
  | _ => true

/-- Whether a token keeps apart what stands before it from what comes after it. -/
def separates (t : Token) : Bool := t.isGap || t = lparen || t = rparen

end Token

/-- Nothing follows, or a token that keeps apart what stands before it. -/
def Fenced (tokens : List Token) : Prop := ∀ t ∈ tokens.head?, t.separates = true

inductive Laid : List Token → Prop
  | nil : Laid []
  | gap {t : Token} {rest : List Token} (ht : t.isGap = true) (hrest : Laid rest) : Laid (t :: rest)
  | whole {t : Token} {rest : List Token} (ht : t.isWhole = true) (hfence : Fenced rest) (hrest : Laid rest) :
    Laid (t :: rest)
  | qualified {table name : String} {rest : List Token} (hfence : Fenced rest) (hrest : Laid rest) :
    Laid (.ident table :: .dot :: .ident name :: rest)
  | group {body rest : List Token} (hbody : Laid body) (hrest : Laid rest) :
    Laid (.lparen :: body ++ .rparen :: rest)

theorem fenced_nil : Fenced [] := nofun

theorem fenced_cons {t : Token} {rest : List Token} (ht : t.separates = true) : Fenced (t :: rest) := by
  intro t' ht'
  rw [List.head?_cons, Option.mem_some_iff] at ht'
  exact ht' ▸ ht

theorem forall_mem_head?_append {α : Type} {p : α → Prop} {a b : List α} (ha : ∀ x ∈ a.head?, p x)
    (hb : ∀ x ∈ b.head?, p x) : ∀ x ∈ (a ++ b).head?, p x := by
  cases a with
  | nil => exact hb
  | cons x rest => exact ha

theorem Fenced.append {a b : List Token} (ha : Fenced a) (hb : Fenced b) : Fenced (a ++ b) :=
  forall_mem_head?_append ha hb

theorem Token.separates_of_isGap {t : Token} (ht : t.isGap = true) : t.separates = true := by
  rw [separates, ht, Bool.true_or, Bool.true_or]

theorem Laid.append {a b : List Token} (ha : Laid a) (hfence : Fenced b) (hb : Laid b) : Laid (a ++ b) := by
  induction ha with
  | nil => exact hb
  | gap ht _ ih => exact .gap ht ih
  | whole ht hf _ ih => exact .whole ht (hf.append hfence) ih
  | qualified hf _ ih => exact .qualified (hf.append hfence) ih
  | @group body rest hbody _ _ ih =>
    have h : Laid (.lparen :: body ++ .rparen :: (rest ++ b)) := .group hbody ih
    rwa [← List.cons_append, ← List.append_assoc] at h

/-- Tokens that may follow any others. -/
structure Trailing (tokens : List Token) : Prop where
  fenced : Fenced tokens
  laid : Laid tokens

theorem Trailing.nil : Trailing [] := ⟨fenced_nil, .nil⟩

theorem Laid.trailing {t : Token} {rest : List Token} (h : Laid rest) (ht : t.isGap = true) : Trailing (t :: rest) :=
  ⟨fenced_cons (Token.separates_of_isGap ht), .gap ht h⟩

namespace Laid

theorem followed {a b : List Token} (ha : Laid a) (hb : Trailing b) : Laid (a ++ b) :=
  ha.append hb.fenced hb.laid

theorem opened {t : Token} {rest : List Token} (ht : t.isWhole = true) (hrest : Trailing rest) : Laid (t :: rest) :=
  .whole ht hrest.fenced hrest.laid

theorem single {t : Token} (ht : t.isWhole = true) : Laid [t] := .opened ht .nil

theorem enclosed {body : List Token} (hbody : Laid body) : Laid (.lparen :: body ++ [.rparen]) :=
  .group hbody .nil

theorem spaced {tokens : List Token} (h : Laid tokens) : Trailing (.space :: tokens) := h.trailing rfl

end Laid

theorem BinaryOp.isWhole_token (op : BinaryOp) : op.token.isWhole = true := by
  cases op <;> rfl

theorem Literal.isWhole_token (l : Literal) : l.token.isWhole = true := by
  cases l <;> rfl

theorem SortDir.isWhole_token (dir : SortDir) : dir.token.isWhole = true := by
  cases dir <;> rfl

theorem trailing_labelTokens (label : Option String) : Trailing (labelTokens label) := by
  cases label with
  | none => exact .nil
  | some label =>
    have hlabel : Laid [.ident label] := .single rfl
    exact (Laid.opened rfl hlabel.spaced).spaced

theorem trailing_negationTokens (negated : Bool) : Trailing (negationTokens negated) := by
  cases negated with
  | false => exact .nil
  | true => exact (Laid.single rfl).spaced

theorem Laid.lowered {tokens : List Token} (h : Laid tokens) (lowered : Bool) : Laid (maybeLowered lowered tokens) := by
  cases lowered with
  | false => exact h
  | true => exact .whole rfl (fenced_cons rfl) h.enclosed

theorem Laid.clause {keyword : Token} {tokens : List Token} (h : Laid tokens) (hkeyword : keyword.isWhole = true) :
    Trailing (clauseTokens keyword tokens) := by
  unfold clauseTokens
  split
  · exact .nil
  · exact (Laid.opened hkeyword h.spaced).trailing rfl

theorem laid_pageTokens (d : Dialect) (limit offset : Option UInt64) : Laid (pageTokens d limit offset) := by
  have bound {keyword : Token} (hkeyword : keyword.isWhole = true) (n : Int64) :
      Laid [keyword, .space, .litInt n] := .opened hkeyword (Laid.single rfl).spaced
  rcases limit with - | l <;> rcases offset with - | o
  · exact .nil
  · have hoffset : Laid [.offset, .space, boundToken o] := bound rfl _
    cases d with
    | sqlite => exact (bound rfl (-1)).followed hoffset.spaced
    | postgres | mysql | duckdb => exact hoffset
  · exact bound rfl _
  · exact (bound rfl _).followed (bound rfl _).spaced

theorem trailing_boundsTokens (d : Dialect) (bounds : Option LimitOffset) : Trailing (boundsTokens d bounds) := by
  cases bounds with
  | none => exact .nil
  | some bounds => exact (laid_pageTokens d bounds.limit bounds.offset).trailing rfl

/-- A test of membership: an operand, perhaps negated, and what it is looked for in. -/
theorem Laid.membership {operand body : List Token} (h : Laid operand) (negated : Bool) (hbody : Laid body) :
    Laid (operand ++ negationTokens negated ++ .space :: .in_ :: .space :: .lparen :: body ++ [.rparen]) := by
  have hin : Trailing (.space :: .in_ :: .space :: (.lparen :: body ++ [.rparen])) :=
    (Laid.opened rfl hbody.enclosed.spaced).spaced
  rw [List.append_assoc]
  exact (h.followed (trailing_negationTokens negated)).followed hin

mutual

theorem Expr.laid (d : Dialect) : ∀ e : Expr, Laid (e.tokens d)
  | .column (some _) _ => .qualified fenced_nil .nil
  | .column none _ => .single rfl
  | .literal l => .single l.isWhole_token
  | .param _ => .single rfl
  | .binary op left right => (Expr.laid d left).followed (Laid.opened op.isWhole_token (Expr.laid d right).spaced).spaced
  | .not e => .opened rfl (Expr.laid d e).spaced
  | .call _ distinct args => by
    have hargs := exprsLaid d args
    cases distinct with
    | false => exact .whole rfl (fenced_cons rfl) hargs.enclosed
    | true => exact .whole rfl (fenced_cons rfl) (Laid.opened rfl hargs.spaced).enclosed
  | .inList e values negated => by
    have he := Expr.laid d e
    have hvalues := exprsLaid d values
    rw [Expr.tokens]
    split
    · cases negated <;> exact .single rfl
    · exact he.membership negated hvalues
  | .inQuery e query negated => (Expr.laid d e).membership negated (Query.laid d query)
  | .isNull e negated => by
    have he := Expr.laid d e
    cases negated <;> exact he.followed (Laid.single rfl).spaced
  | .like e pattern escape negated caseInsensitive => by
    have he := (Expr.laid d e).lowered (caseInsensitive && !d.hasILike)
    have hpattern := (Expr.laid d pattern).lowered (caseInsensitive && !d.hasILike)
    have hescape : Laid [.escape, .space, .litText (String.ofList [escape])] := .opened rfl (Laid.single rfl).spaced
    have hoperand := he.followed (trailing_negationTokens negated)
    have hmatch {t : Token} (ht : t.isWhole = true) := hoperand.followed (Laid.opened ht hpattern.spaced).spaced
    simp only [Expr.tokens]
    split <;> exact (hmatch rfl).followed hescape.spaced
  | .paren e => (Expr.laid d e).enclosed
termination_by structural e => e

theorem exprsLaid (d : Dialect) : ∀ es, Laid (exprsTokens d es)
  | [] => .nil
  | e :: rest => (Expr.laid d e).followed (moreExprsLaid d rest)
termination_by structural es => es

theorem moreExprsLaid (d : Dialect) : ∀ es, Trailing (moreExprsTokens d es)
  | [] => .nil
  | e :: rest => ((Expr.laid d e).followed (moreExprsLaid d rest)).spaced.laid.trailing rfl
termination_by structural es => es

theorem SelectItem.laid (d : Dialect) : ∀ item : SelectItem, Laid (item.tokens d)
  | ⟨e, label⟩ => (Expr.laid d e).followed (trailing_labelTokens label)
termination_by structural item => item

theorem selectLaid (d : Dialect) : ∀ items, Trailing (selectTokens d items)
  | [] => .nil
  | item :: rest =>
    have h := (SelectItem.laid d item).followed (moreSelectLaid d rest)
    (h.trailing rfl).laid.trailing rfl
termination_by structural items => items

theorem moreSelectLaid (d : Dialect) : ∀ items, Trailing (moreSelectTokens d items)
  | [] => .nil
  | item :: rest =>
    have h := (SelectItem.laid d item).followed (moreSelectLaid d rest)
    ((h.trailing rfl).laid.trailing rfl).laid.trailing rfl
termination_by structural items => items

theorem TableSource.laid (d : Dialect) : ∀ source : TableSource, Laid (source.tokens d)
  | .named _ => .single rfl
  | .derived query => (Query.laid d query).enclosed
termination_by structural source => source

theorem TableRef.laid (d : Dialect) : ∀ table : TableRef, Laid (table.tokens d)
  | ⟨source, label⟩ => (TableSource.laid d source).followed (trailing_labelTokens label)
termination_by structural table => table

theorem optionalTableLaid (d : Dialect) : ∀ table, Laid (optionalTableTokens d table)
  | none => .nil
  | some table => TableRef.laid d table
termination_by structural table => table

theorem Join.laid (d : Dialect) : ∀ join : Join, Laid (join.tokens d)
  | ⟨table, on⟩ =>
    have hon := Laid.opened rfl (Expr.laid d on).spaced
    have htable := (TableRef.laid d table).followed hon.spaced
    .opened rfl (Laid.opened rfl (Laid.opened rfl htable.spaced).spaced).spaced
termination_by structural join => join

theorem joinsLaid (d : Dialect) : ∀ joins, Trailing (joinsTokens d joins)
  | [] => .nil
  | join :: rest => ((Join.laid d join).followed (joinsLaid d rest)).trailing rfl
termination_by structural joins => joins

theorem optionalExprLaid (d : Dialect) : ∀ e, Laid (optionalExprTokens d e)
  | none => .nil
  | some e => Expr.laid d e
termination_by structural e => e

theorem OrderItem.laid (d : Dialect) : ∀ item : OrderItem, Laid (item.tokens d)
  | ⟨e, none⟩ => (Expr.laid d e).followed .nil
  | ⟨e, some dir⟩ => (Expr.laid d e).followed (Laid.single dir.isWhole_token).spaced
termination_by structural item => item

theorem orderLaid (d : Dialect) : ∀ items, Laid (orderTokens d items)
  | [] => .nil
  | item :: rest => (OrderItem.laid d item).followed (moreOrderLaid d rest)
termination_by structural items => items

theorem moreOrderLaid (d : Dialect) : ∀ items, Trailing (moreOrderTokens d items)
  | [] => .nil
  | item :: rest => ((OrderItem.laid d item).followed (moreOrderLaid d rest)).spaced.laid.trailing rfl
termination_by structural items => items

theorem Query.laid (d : Dialect) : ∀ q : Query, Laid (q.tokens d)
  | ⟨select, table, joins, condition, groupBy, orderBy, bounds⟩ => by
    have hselect : Laid (.select :: selectTokens d select) := .opened rfl (selectLaid d select)
    have hfrom : Trailing (clauseTokens .from_ (optionalTableTokens d table)) := (optionalTableLaid d table).clause rfl
    have hwhere : Trailing (clauseTokens .where_ (optionalExprTokens d condition)) :=
      (optionalExprLaid d condition).clause rfl
    have hgroupBy : Trailing (clauseTokens .groupBy (exprsTokens d groupBy)) := (exprsLaid d groupBy).clause rfl
    have horderBy : Trailing (clauseTokens .orderBy (orderTokens d orderBy)) := (orderLaid d orderBy).clause rfl
    have hrows := (hselect.followed hfrom).followed (joinsLaid d joins)
    exact (((hrows.followed hwhere).followed hgroupBy).followed horderBy).followed (trailing_boundsTokens d bounds)
termination_by structural query => query

end

end RelQuery.Sql
