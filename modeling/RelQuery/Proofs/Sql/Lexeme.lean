import RelQuery.Sql.Token

/-!
# Reading SQL text

A reader that cuts SQL text into lexemes by the rules of a dialect, one character after the other: the mark of a
quotation is doubled inside it, in MySQL a backslash in a text takes the next character with it, and placeholders are
numbered in Postgres and DuckDB. It is stricter than a database is. Two lexemes have to be kept apart by a blank, a
comma or a parenthesis, names of a qualified column by a dot, and all else it refuses, such as a text right after a word
or the start of a comment.
-/

namespace RelQuery.Sql

inductive Lexeme where
  | word (w : String)
  | name (s : String)
  | text (s : String)
  | int (n : Int)
  /-- A placeholder, with its number if the dialect numbers them. -/
  | placeholder (number : Option Nat)
  | symbol (s : String)
  deriving DecidableEq

def Lexeme.isPlaceholder : Lexeme → Bool
  | placeholder _ => true
  | _ => false

inductive Quotation where
  | name
  | text
  deriving DecidableEq

namespace Quotation

/-- The character that opens a quotation and closes it. -/
def mark : Quotation → Dialect → Char
  | name, .mysql => '\x60'
  | name, .sqlite | name, .postgres | name, .duckdb => '"'
  | text, _ => '\''

/-- Whether a backslash takes the next character with it. -/
def escapes : Quotation → Dialect → Bool
  | text, .mysql => true
  | _, _ => false

def lexeme (s : String) : Quotation → Lexeme
  | name => .name s
  | text => .text s

end Quotation

namespace Dialect

/-- What a backslash and the character after it stand for. -/
def unescaped : Char → List Char
  | '0' => ['\x00']
  | 'b' => ['\x08']
  | 'n' => ['\n']
  | 'r' => ['\r']
  | 't' => ['\t']
  | 'Z' => ['\x1a']
  | '%' => ['\\', '%']
  | '_' => ['\\', '_']
  | c => [c]

def numbersPlaceholders : Dialect → Bool
  | postgres | duckdb => true
  | sqlite | mysql => false

def comparisons : List String := ["=", "<>", "<", ">", "<=", ">="]

end Dialect

/-- How far a reader is, with the characters of the lexeme that it has begun. -/
inductive Mode where
  | between
  /-- After the dot of a qualified name. -/
  | qualifying
  | word (read : List Char)
  | number (read : List Char)
  | numbered (read : List Char)
  | anonymous
  | comparison (read : List Char)
  | quoted (quotation : Quotation) (read : List Char)
  /-- After a backslash in a quotation. -/
  | escaping (quotation : Quotation) (read : List Char)
  /-- After a mark that closes a quotation unless another one follows. -/
  | closed (quotation : Quotation) (read : List Char)

namespace Mode

/-- The start of a lexeme. -/
def opened? (d : Dialect) (c : Char) : Option Mode :=
  if c.isAlpha then some (word [c])
  else if c.isDigit || c = '-' then some (number [c])
  else if c = '<' || c = '>' || c = '=' then some (comparison [c])
  else if c = Quotation.name.mark d then some (quoted .name [])
  else if c = Quotation.text.mark d then some (quoted .text [])
  else if c = '$' && d.numbersPlaceholders then some (numbered [])
  else if c = '?' && !d.numbersPlaceholders then some anonymous
  else none

/-- Takes up a character that belongs to a lexeme. -/
def next? (d : Dialect) : Mode → Char → Option Mode
  | between, c => opened? d c
  | qualifying, c => if c = Quotation.name.mark d then some (quoted .name []) else none
  | word read, c => if c.isAlphanum || c = '_' then some (word (read ++ [c])) else none
  | number read, c => if c.isDigit then some (number (read ++ [c])) else none
  | numbered read, c => if c.isDigit then some (numbered (read ++ [c])) else none
  | anonymous, _ => none
  | comparison read, c => if c = '>' || c = '=' then some (comparison (read ++ [c])) else none
  | quoted quotation read, c =>
    if c = quotation.mark d then some (closed quotation read)
    else if c = '\\' && quotation.escapes d then some (escaping quotation read)
    else some (quoted quotation (read ++ [c]))
  | escaping quotation read, c => some (quoted quotation (read ++ Dialect.unescaped c))
  | closed quotation read, c => if c = quotation.mark d then some (quoted quotation (read ++ [c])) else none

/-- The lexemes that are complete where a lexeme may end: the one that was begun, if any. -/
def finish : Mode → Option (List Lexeme)
  | between => some []
  | word read => some [.word (String.ofList read)]
  | number read => (String.ofList read).toInt?.map fun n => [.int n]
  | numbered read => (String.ofList read).toNat?.map fun n => [.placeholder (some n)]
  | anonymous => some [.placeholder none]
  | comparison read =>
    if String.ofList read ∈ Dialect.comparisons then some [.symbol (String.ofList read)] else none
  | closed quotation read => some [quotation.lexeme (String.ofList read)]
  | qualifying | quoted _ _ | escaping _ _ => none

/-- What a character between two lexemes is read as, and where it leads. -/
def separator? : Mode → Char → Option (List Lexeme × Mode)
  | closed .name _, '.' => some ([.symbol "."], qualifying)
  | _, ',' => some ([.symbol ","], between)
  | _, '(' => some ([.symbol "("], between)
  | _, ')' => some ([.symbol ")"], between)
  | _, c => if c.isWhitespace then some ([], between) else none

end Mode

/-- The lexemes of a text, of which the start has been read. -/
def lexFrom (d : Dialect) : Mode → List Char → Option (List Lexeme)
  | mode, [] => mode.finish
  | mode, c :: rest =>
    match mode.next? d c with
    | some next => lexFrom d next rest
    | none =>
      match mode.finish, mode.separator? c with
      | some complete, some (separator, next) => (lexFrom d next rest).map (complete ++ separator ++ ·)
      | _, _ => none

def lex (d : Dialect) (sql : String) : Option (List Lexeme) :=
  lexFrom d .between sql.toList

def Dialect.boolLexeme : Dialect → Bool → Lexeme
  | postgres, b | duckdb, b => .word (if b then "true" else "false")
  | sqlite, b | mysql, b => .int (if b then 1 else 0)

/-- The placeholder of the parameter with the given number. -/
def Dialect.placeholderLexeme (d : Dialect) (index : Nat) : Lexeme :=
  .placeholder (if d.numbersPlaceholders then some index else none)

namespace Token

/-- The words of a keyword. -/
def words : Token → List String
  | select => ["SELECT"]
  | from_ => ["FROM"]
  | where_ => ["WHERE"]
  | and => ["AND"]
  | or => ["OR"]
  | not => ["NOT"]
  | as => ["AS"]
  | on => ["ON"]
  | join => ["JOIN"]
  | left => ["LEFT"]
  | outer => ["OUTER"]
  | groupBy => ["GROUP", "BY"]
  | orderBy => ["ORDER", "BY"]
  | asc => ["ASC"]
  | desc => ["DESC"]
  | limit => ["LIMIT"]
  | offset => ["OFFSET"]
  | in_ => ["IN"]
  | like => ["LIKE"]
  | ilike => ["ILIKE"]
  | escape => ["ESCAPE"]
  | isNull => ["IS", "NULL"]
  | isNotNull => ["IS", "NOT", "NULL"]
  | distinct => ["DISTINCT"]
  | litNull => ["NULL"]
  | _ => []

/-- The lexemes of a token; `index` is the number of a parameter. -/
def lexemes (d : Dialect) (index : Nat) : Token → List Lexeme
  | true_ => [d.boolLexeme true]
  | false_ => [d.boolLexeme false]
  | comma => [.symbol ","]
  | dot => [.symbol "."]
  | lparen => [.symbol "("]
  | rparen => [.symbol ")"]
  | eq => [.symbol "="]
  | ne => [.symbol "<>"]
  | lt => [.symbol "<"]
  | gt => [.symbol ">"]
  | lte => [.symbol "<="]
  | gte => [.symbol ">="]
  | space | newline | indent _ => []
  | ident name => [.name name]
  | litInt n => [.int n.toInt]
  | litText s => [.text s]
  | litBool b => [d.boolLexeme b]
  | param _ => [d.placeholderLexeme index]
  | function name => if name = "" then [] else [.word (Text.upper name)]
  | keyword => keyword.words.map .word

/-- Whether the name of a function is made of ASCII letters. -/
def isLettered : Token → Bool
  | function name => name.toList.all Char.isAlpha
  | _ => true

end Token

/-- The lexemes of tokens in order, when `count` parameters have come before. -/
def lexemesFrom (d : Dialect) : Nat → List Token → List Lexeme
  | _, [] => []
  | count, t :: rest =>
    let count := if t.param?.isSome then count + 1 else count
    t.lexemes d count ++ lexemesFrom d count rest

end RelQuery.Sql
