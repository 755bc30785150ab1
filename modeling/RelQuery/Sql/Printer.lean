import RelQuery.Sql.Syntax
import RelQuery.Sql.Token

/-!
# Queries as tokens

The tokens of expressions and queries in a dialect, and the statements they spell.
-/

namespace RelQuery.Sql

def BinaryOp.token : BinaryOp → Token
  | eq => .eq
  | ne => .ne
  | lt => .lt
  | gt => .gt
  | lte => .lte
  | gte => .gte
  | and => .and
  | or => .or

def Literal.token : Literal → Token
  | int n => .litInt n
  | text s => .litText s
  | bool b => .litBool b
  | null => .litNull

def SortDir.token : SortDir → Token
  | asc => .asc
  | desc => .desc

def labelTokens : Option String → List Token
  | some label => [.space, .as, .space, .ident label]
  | none => []

def negationTokens (negated : Bool) : List Token :=
  if negated then [.space, .not] else []

/-- A page bound, as a signed number of the same bits. -/
def boundToken (n : UInt64) : Token := .litInt n.toInt64

/-- The bounds of a page. SQLite has no offset without a limit, where a limit of -1 stands for none. -/
def pageTokens (d : Dialect) : Option UInt64 → Option UInt64 → List Token
  | none, none => []
  | some l, none => [.limit, .space, boundToken l]
  | none, some o =>
    (if d = .sqlite then [.limit, .space, .litInt (-1), .space] else []) ++ [.offset, .space, boundToken o]
  | some l, some o => [.limit, .space, boundToken l, .space, .offset, .space, boundToken o]

/-- The clause for the bounds of a query, on a line of its own. -/
def boundsTokens (d : Dialect) : Option LimitOffset → List Token
  | none => []
  | some bounds => .newline :: pageTokens d bounds.limit bounds.offset

/-- An operand of a match, in lower case where the dialect does not match without regard to case by itself. -/
def maybeLowered (lowered : Bool) (tokens : List Token) : List Token :=
  if lowered then .function "LOWER" :: .lparen :: tokens ++ [.rparen] else tokens

/-- The clause that a keyword opens, on a line of its own, if it holds anything. -/
def clauseTokens (keyword : Token) (tokens : List Token) : List Token :=
  if tokens.isEmpty then [] else .newline :: keyword :: .space :: tokens

mutual

def Expr.tokens (d : Dialect) : Expr → List Token
  | .column (some table) name => [.ident table, .dot, .ident name]
  | .column none name => [.ident name]
  | .literal l => [l.token]
  | .param v => [.param v]
  | .binary op left right => left.tokens d ++ .space :: op.token :: .space :: right.tokens d
  | .not e => .not :: .space :: e.tokens d
  | .call name distinct args =>
    .function name :: .lparen :: (if distinct then [.distinct, .space] else []) ++ exprsTokens d args ++ [.rparen]
  | .inList e values negated =>
    -- nothing is in an empty list
    if values.isEmpty then [if negated then .true_ else .false_]
    else
      e.tokens d ++ negationTokens negated ++ .space :: .in_ :: .space :: .lparen :: exprsTokens d values ++ [.rparen]
  | .inQuery e query negated =>
    e.tokens d ++ negationTokens negated ++ .space :: .in_ :: .space :: .lparen :: query.tokens d ++ [.rparen]
  | .isNull e negated => e.tokens d ++ [.space, if negated then .isNotNull else .isNull]
  | .like e pattern escape negated caseInsensitive =>
    let native := caseInsensitive && d.hasILike
    let lowered := caseInsensitive && !d.hasILike
    maybeLowered lowered (e.tokens d) ++ negationTokens negated
      ++ .space :: (if native then .ilike else .like) :: .space :: maybeLowered lowered (pattern.tokens d)
      ++ [.space, .escape, .space, .litText (String.ofList [escape])]
  | .paren e => .lparen :: e.tokens d ++ [.rparen]
termination_by structural e => e

def exprsTokens (d : Dialect) : List Expr → List Token
  | [] => []
  | e :: rest => e.tokens d ++ moreExprsTokens d rest
termination_by structural es => es

def moreExprsTokens (d : Dialect) : List Expr → List Token
  | [] => []
  | e :: rest => .comma :: .space :: e.tokens d ++ moreExprsTokens d rest
termination_by structural es => es

def SelectItem.tokens (d : Dialect) : SelectItem → List Token
  | ⟨e, label⟩ => e.tokens d ++ labelTokens label
termination_by structural item => item

/-- The tokens of selected expressions, each on a line of its own, with commas between them. -/
def selectTokens (d : Dialect) : List SelectItem → List Token
  | [] => []
  | item :: rest => .newline :: .indent 1 :: item.tokens d ++ moreSelectTokens d rest
termination_by structural items => items

def moreSelectTokens (d : Dialect) : List SelectItem → List Token
  | [] => []
  | item :: rest => .comma :: .newline :: .indent 1 :: item.tokens d ++ moreSelectTokens d rest
termination_by structural items => items

def TableSource.tokens (d : Dialect) : TableSource → List Token
  | .named table => [.ident table]
  | .derived query => .lparen :: query.tokens d ++ [.rparen]
termination_by structural source => source

def TableRef.tokens (d : Dialect) : TableRef → List Token
  | ⟨source, label⟩ => source.tokens d ++ labelTokens label
termination_by structural table => table

def optionalTableTokens (d : Dialect) : Option TableRef → List Token
  | none => []
  | some table => table.tokens d
termination_by structural table => table

def Join.tokens (d : Dialect) : Join → List Token
  | ⟨table, on⟩ =>
    .left :: .space :: .outer :: .space :: .join :: .space :: table.tokens d ++ .space :: .on :: .space :: on.tokens d
termination_by structural join => join

def joinsTokens (d : Dialect) : List Join → List Token
  | [] => []
  | join :: rest => .newline :: join.tokens d ++ joinsTokens d rest
termination_by structural joins => joins

def optionalExprTokens (d : Dialect) : Option Expr → List Token
  | none => []
  | some e => e.tokens d
termination_by structural e => e

def OrderItem.tokens (d : Dialect) : OrderItem → List Token
  | ⟨e, dir⟩ =>
    e.tokens d ++
      match dir with
      | some dir => [.space, dir.token]
      | none => []
termination_by structural item => item

def orderTokens (d : Dialect) : List OrderItem → List Token
  | [] => []
  | item :: rest => item.tokens d ++ moreOrderTokens d rest
termination_by structural items => items

def moreOrderTokens (d : Dialect) : List OrderItem → List Token
  | [] => []
  | item :: rest => .comma :: .space :: item.tokens d ++ moreOrderTokens d rest
termination_by structural items => items

def Query.tokens (d : Dialect) : Query → List Token
  | ⟨select, table, joins, condition, groupBy, orderBy, bounds⟩ =>
    .select :: selectTokens d select
      ++ clauseTokens .from_ (optionalTableTokens d table)
      ++ joinsTokens d joins
      ++ clauseTokens .where_ (optionalExprTokens d condition)
      ++ clauseTokens .groupBy (exprsTokens d groupBy)
      ++ clauseTokens .orderBy (orderTokens d orderBy)
      ++ boundsTokens d bounds
termination_by structural query => query

end

def Expr.statement (d : Dialect) (e : Expr) : Statement := .ofTokens d (e.tokens d)

def Query.statement (d : Dialect) (q : Query) : Statement := .ofTokens d (q.tokens d)

end RelQuery.Sql
