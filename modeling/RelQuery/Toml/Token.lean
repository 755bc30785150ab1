/-!
# TOML tokens

A TOML text is split into tokens first: marks, spaces, ends of lines, quoted strings with their escapes resolved, and
atoms, which are runs of any other characters. Comments leave no token.
-/

namespace RelQuery.Toml

inductive Token where
  | newline
  | space (count : Nat)
  | dot | equals | comma
  | lbracket | rbracket | lbrace | rbrace
  | atom (cs : List Char)
  /-- A quoted string; one over several lines cannot be a key. -/
  | quoted (multiline : Bool) (s : String)
  deriving DecidableEq

/-- A character that a comment or a string may not hold as it is. -/
def isControl (c : Char) : Bool :=
  (decide (c.toNat < 0x20) && c != '\t') || c.toNat == 0x7F

def isBlank (c : Char) : Bool := c = ' ' || c = '\t'

def endsAtom (c : Char) : Bool :=
  isBlank c || c = '\n' || c = '\r' || c = '#' || c = '.' || c = '=' || c = ',' ||
    c = '[' || c = ']' || c = '\x7b' || c = '\x7d'

def digitValue? (base : Nat) (c : Char) : Option Nat :=
  let v :=
    if '0' ≤ c && c ≤ '9' then c.toNat - 48
    else if 'a' ≤ c && c ≤ 'f' then c.toNat - 87
    else if 'A' ≤ c && c ≤ 'F' then c.toNat - 55
    else 16
  if v < base then some v else none

def natOfDigits? (base : Nat) (cs : List Char) : Option Nat :=
  cs.foldlM (fun n c => (digitValue? base c).map (base * n + ·)) 0

def charOfHex? (cs : List Char) : Option Char :=
  (natOfDigits? 16 cs).bind fun n => if n.isValidChar then some (Char.ofNat n) else none

def escaped? : Char → Option Char
  | 'b' => some '\x08'
  | 't' => some '\t'
  | 'n' => some '\n'
  | 'f' => some '\x0c'
  | 'r' => some '\r'
  | '"' => some '"'
  | '\\' => some '\\'
  | _ => none

abbrev Scanned := List Char × List Char

def Scanned.cons (c : Char) (s : Scanned) : Scanned := (c :: s.1, s.2)

/-- The character that an escape stands for, after its backslash, and the rest. -/
def unescape? : List Char → Option (Char × List Char)
  | 'u' :: a :: b :: c :: d :: rest => (charOfHex? [a, b, c, d]).map (·, rest)
  | 'U' :: a :: b :: c :: d :: e :: f :: g :: h :: rest => (charOfHex? [a, b, c, d, e, f, g, h]).map (·, rest)
  | c :: rest => (escaped? c).map (·, rest)
  | [] => none

def scanBasic : Nat → List Char → Option Scanned
  | 0, _ => none
  | fuel + 1, cs =>
    match cs with
    | '"' :: rest => some ([], rest)
    | '\\' :: rest => (unescape? rest).bind fun (c, rest) => (scanBasic fuel rest).map (Scanned.cons c)
    | c :: rest => if isControl c then none else (scanBasic fuel rest).map (Scanned.cons c)
    | [] => none

def scanLiteral : List Char → Option Scanned
  | '\'' :: rest => some ([], rest)
  | c :: rest => if isControl c then none else (scanLiteral rest).map (Scanned.cons c)
  | [] => none

/-- The rest after the blanks and ends of lines that a backslash at the end of a line takes with it. -/
def skipLineEnd? (cs : List Char) : Option (List Char) :=
  match cs.dropWhile isBlank with
  | '\n' :: rest => some (rest.dropWhile fun c => isBlank c || c = '\n' || c = '\r')
  | '\r' :: '\n' :: rest => some (rest.dropWhile fun c => isBlank c || c = '\n' || c = '\r')
  | _ => none

/-- The quotes that close a string over several lines: up to two more belong to the string. -/
def closing? (q : Char) : List Char → Option Scanned
  | a :: b :: c :: rest =>
    if a = q && b = q && c = q then
      match rest with
      | d :: e :: rest' =>
        if d = q && e = q then some ([q, q], rest') else if d = q then some ([q], e :: rest') else some ([], rest)
      | [d] => if d = q then some ([q], []) else some ([], rest)
      | [] => some ([], [])
    else none
  | _ => none

/-- What follows three opening quotes, up to the closing ones; escapes are resolved between double quotes. -/
def scanMultiline (q : Char) : Nat → List Char → Option Scanned
  | 0, _ => none
  | fuel + 1, cs =>
    match closing? q cs with
    | some done => some done
    | none =>
      match cs with
      | '\r' :: '\n' :: rest => (scanMultiline q fuel rest).map (Scanned.cons '\n')
      | '\n' :: rest => (scanMultiline q fuel rest).map (Scanned.cons '\n')
      | c :: rest =>
        if c = '\\' && q = '"' then
          match skipLineEnd? rest with
          | some rest => scanMultiline q fuel rest
          | none => (unescape? rest).bind fun (c, rest) => (scanMultiline q fuel rest).map (Scanned.cons c)
        else if isControl c then none
        else (scanMultiline q fuel rest).map (Scanned.cons c)
      | [] => none

/-- A string over several lines starts after the end of the line that its quotes are on. -/
def dropFirstNewline : List Char → List Char
  | '\n' :: rest => rest
  | '\r' :: '\n' :: rest => rest
  | cs => cs

def scanQuoted? (cs : List Char) : Option (Token × List Char) :=
  let token (multiline : Bool) (s : Scanned) : Token × List Char := (.quoted multiline (String.ofList s.1), s.2)
  match cs with
  | '"' :: '"' :: '"' :: rest => (scanMultiline '"' (rest.length + 1) (dropFirstNewline rest)).map (token true)
  | '\'' :: '\'' :: '\'' :: rest => (scanMultiline '\'' (rest.length + 1) (dropFirstNewline rest)).map (token true)
  | '"' :: rest => (scanBasic (rest.length + 1) rest).map (token false)
  | '\'' :: rest => (scanLiteral rest).map (token false)
  | _ => none

def mark? : Char → Option Token
  | '\n' => some .newline
  | '.' => some .dot
  | '=' => some .equals
  | ',' => some .comma
  | '[' => some .lbracket
  | ']' => some .rbracket
  | '\x7b' => some .lbrace
  | '\x7d' => some .rbrace
  | _ => none

/-- The first token of a text, if there is one before the rest; no answer for what is no TOML. -/
def nextToken? (cs : List Char) : Option (Option Token × List Char) :=
  match cs with
  | [] => none
  | '\r' :: '\n' :: rest => some (some .newline, rest)
  | '\r' :: _ => none
  | '#' :: rest =>
    let ended (c : Char) := c = '\n' || c = '\r'
    if (rest.takeWhile (!ended ·)).any isControl then none else some (none, rest.dropWhile (!ended ·))
  | c :: rest =>
    match mark? c with
    | some t => some (some t, rest)
    | none =>
      if isBlank c then some (some (.space ((rest.takeWhile isBlank).length + 1)), rest.dropWhile isBlank)
      else if c = '"' || c = '\'' then (scanQuoted? cs).map fun (t, rest) => (some t, rest)
      else some (some (.atom (c :: rest.takeWhile (!endsAtom ·))), rest.dropWhile (!endsAtom ·))

def tokensWithin : Nat → List Char → Option (List Token)
  | 0, _ => some []
  | fuel + 1, cs =>
    if cs.isEmpty then some []
    else
      (nextToken? cs).bind fun (t, rest) => (tokensWithin fuel rest).map (t.toList ++ ·)

/-- The tokens of a text. A byte order mark in front is skipped. -/
def tokens? (text : String) : Option (List Token) :=
  let cs := match text.toList with
    | '\ufeff' :: rest => rest
    | cs => cs
  tokensWithin (cs.length + 1) cs

end RelQuery.Toml
