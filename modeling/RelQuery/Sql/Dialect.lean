/-!
# SQL dialects

What differs between the dialects: how identifiers and texts are quoted, how truth values and placeholders are
spelled, and whether matching without regard to case is built in.
-/

namespace RelQuery.Sql

inductive Dialect where
  | sqlite
  | postgres
  | mysql
  | duckdb
  deriving DecidableEq, Inhabited

namespace Dialect

def all : List Dialect := [sqlite, postgres, mysql, duckdb]

def name : Dialect → String
  | sqlite => "sqlite"
  | postgres => "postgres"
  | mysql => "mysql"
  | duckdb => "duckdb"

def ofName? (name : String) : Option Dialect :=
  all.find? (·.name == name)

theorem ofName?_name (d : Dialect) : ofName? d.name = some d := by
  cases d <;> decide

/-- Writes each character twice that the test picks. -/
def doubled (twice : Char → Bool) (cs : List Char) : List Char :=
  cs.flatMap fun c => if twice c then [c, c] else [c]

def identQuote : Dialect → Char
  | mysql => '\x60'
  | _ => '"'

/-- Whether a character inside a quoted text is written twice: the quote, and in MySQL the backslash. -/
def doublesInText : Dialect → Char → Bool
  | mysql, c => c = '\'' || c = '\\'
  | _, c => c = '\''

def quoteIdent (d : Dialect) (ident : String) : String :=
  let q := d.identQuote
  String.ofList (q :: doubled (· = q) ident.toList ++ [q])

def quoteText (d : Dialect) (s : String) : String :=
  String.ofList ('\'' :: doubled d.doublesInText s.toList ++ ['\''])

def boolText : Dialect → Bool → String
  | postgres, b | duckdb, b => if b then "true" else "false"
  | sqlite, b | mysql, b => if b then "1" else "0"

/-- The placeholder of the parameter with the given number, counted from one. -/
def placeholder : Dialect → Nat → String
  | postgres, index | duckdb, index => "$" ++ toString index
  | sqlite, _ | mysql, _ => "?"

def hasILike : Dialect → Bool
  | postgres | duckdb => true
  | sqlite | mysql => false

end Dialect

end RelQuery.Sql
