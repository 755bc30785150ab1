import RelQuery.Sql.Dialect
import RelQuery.Text.Case
import RelQuery.Value

/-!
# SQL tokens

A statement is a list of tokens before it is a text. Parameters travel among the tokens, so that placeholders and
their values cannot drift apart.
-/

namespace RelQuery.Sql

inductive Token where
  -- keywords
  | select | from_ | where_ | and | or | not | as | on | join | left | outer
  | groupBy | orderBy | asc | desc | limit | offset
  | in_ | like | ilike | escape | isNull | isNotNull | distinct
  | true_ | false_
  -- punctuation
  | comma | dot | lparen | rparen
  -- comparison
  | eq | ne | lt | gt | lte | gte
  -- layout
  | space | newline
  | indent (depth : Nat)
  -- content
  | ident (name : String)
  | litInt (n : Int64)
  | litText (s : String)
  | litBool (b : Bool)
  | litNull
  | param (v : Value)
  | function (name : String)
  deriving DecidableEq

namespace Token

/-- The text of a token; `index` is the number of a parameter. -/
def text (d : Dialect) (index : Nat) : Token → String
  | select => "SELECT"
  | from_ => "FROM"
  | where_ => "WHERE"
  | and => "AND"
  | or => "OR"
  | not => "NOT"
  | as => "AS"
  | on => "ON"
  | join => "JOIN"
  | left => "LEFT"
  | outer => "OUTER"
  | groupBy => "GROUP BY"
  | orderBy => "ORDER BY"
  | asc => "ASC"
  | desc => "DESC"
  | limit => "LIMIT"
  | offset => "OFFSET"
  | in_ => "IN"
  | like => "LIKE"
  | ilike => "ILIKE"
  | escape => "ESCAPE"
  | isNull => "IS NULL"
  | isNotNull => "IS NOT NULL"
  | distinct => "DISTINCT"
  | true_ => d.boolText true
  | false_ => d.boolText false
  | comma => ","
  | dot => "."
  | lparen => "("
  | rparen => ")"
  | eq => "="
  | ne => "<>"
  | lt => "<"
  | gt => ">"
  | lte => "<="
  | gte => ">="
  | space => " "
  | newline => "\n"
  | indent depth => String.ofList (List.replicate (2 * depth) ' ')
  | ident name => d.quoteIdent name
  | litInt n => toString n.toInt
  | litText s => d.quoteText s
  | litBool b => d.boolText b
  | litNull => "NULL"
  | param _ => d.placeholder index
  | function name => Text.upper name

def param? : Token → Option Value
  | param v => some v
  | _ => none

end Token

def renderFrom (d : Dialect) : Nat → List Token → String
  | _, [] => ""
  | count, t :: rest =>
    let count := if t.param?.isSome then count + 1 else count
    t.text d count ++ renderFrom d count rest

def render (d : Dialect) (tokens : List Token) : String :=
  renderFrom d 0 tokens

def paramsOf (tokens : List Token) : List Value :=
  tokens.filterMap Token.param?

structure Statement where
  sql : String
  params : List Value
  deriving DecidableEq

def Statement.ofTokens (d : Dialect) (tokens : List Token) : Statement :=
  ⟨render d tokens, paramsOf tokens⟩

end RelQuery.Sql
