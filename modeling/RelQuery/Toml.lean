import RelQuery.Toml.Scalar

/-!
# Reading TOML

A TOML text is read line by line into a tree of tables. A table may be opened by a header once only; tables that arise
on the way to another, or from dotted keys, are kept apart, since they follow other rules.
-/

namespace RelQuery

inductive Toml where
  | string (s : String)
  | integer (n : Int)
  | float
  | boolean (b : Bool)
  | date
  | array (items : List Toml)
  | table (entries : List (String × Toml))

namespace Toml

/-- How a table came about. -/
inductive Origin where
  | header
  /-- On the way to a table with a header. -/
  | implied
  | dotted
  deriving DecidableEq

/-- A value, a table, or an array of tables. -/
inductive Item where
  | value (v : Toml)
  | table (origin : Origin) (entries : List (String × Item))
  | tables (elements : List (List (String × Item)))

abbrev Entries := List (String × Item)

def Entries.find? (es : Entries) (key : String) : Option Item :=
  (List.find? (·.1 == key) es).map (·.2)

def Entries.replace (es : Entries) (key : String) (item : Item) : Entries :=
  List.map (fun e => if e.1 = key then (key, item) else e) es

/-- Changes the table at a path of keys, each of which may be a table or the last of an array of tables. Missing tables
are implied. -/
def changeAt (f : Entries → Option Entries) : List String → Entries → Option Entries
  | [], es => f es
  | key :: rest, es =>
    match es.find? key with
    | none => (changeAt f rest []).map fun t => es ++ [(key, .table .implied t)]
    | some (.table origin t) => (changeAt f rest t).map fun t => es.replace key (.table origin t)
    | some (.tables elements) =>
      match elements.getLast? with
      | some t => (changeAt f rest t).map fun t => es.replace key (.tables (elements.dropLast ++ [t]))
      | none => none
    | some (.value _) => none

/-- Opens a table that no header has opened before. -/
def openTable (key : String) (es : Entries) : Option Entries :=
  match es.find? key with
  | none => some (es ++ [(key, .table .header [])])
  | some (.table .implied t) => some (es.replace key (.table .header t))
  | some _ => none

def openElement (key : String) (es : Entries) : Option Entries :=
  match es.find? key with
  | none => some (es ++ [(key, .tables [[]])])
  | some (.tables elements) => some (es.replace key (.tables (elements ++ [[]])))
  | some _ => none

/-- Sets a dotted key that has no value yet. Its tables arise from dotted keys as well. -/
def setKey (v : Toml) : List String → Entries → Option Entries
  | [], _ => none
  | key :: rest, es =>
    match rest, es.find? key with
    | [], none => some (es ++ [(key, .value v)])
    | [], some _ => none
    | _, none => (setKey v rest []).map fun t => es ++ [(key, .table .dotted t)]
    | _, some (.table origin t) =>
      if origin = .header || (rest.length = 1 && origin != .dotted) then none
      else (setKey v rest t).map fun t => es.replace key (.table origin t)
    | _, some _ => none

mutual

def Item.finish : Item → Toml
  | .value v => v
  | .table _ entries => .table (finishEntries entries)
  | .tables elements => .array (finishElements elements)
termination_by structural item => item

def finishEntries : List (String × Item) → List (String × Toml)
  | [] => []
  | (key, item) :: rest => (key, item.finish) :: finishEntries rest
termination_by structural entries => entries

def finishElements : List (List (String × Item)) → List Toml
  | [] => []
  | entries :: rest => .table (finishEntries entries) :: finishElements rest
termination_by structural elements => elements

end

def isBareKeyChar (c : Char) : Bool :=
  c.isAlphanum || c = '_' || c = '-'

def skipSpaces : List Token → List Token
  | .space _ :: rest => skipSpaces rest
  | ts => ts

def keyPart? : Token → Option String
  | .atom cs => if cs.all isBareKeyChar then some (String.ofList cs) else none
  | .quoted false s => some s
  | _ => none

def key? : Nat → List Token → Option (List String × List Token)
  | 0, _ => none
  | fuel + 1, ts =>
    match skipSpaces ts with
    | [] => none
    | t :: rest =>
      (keyPart? t).bind fun part =>
        match skipSpaces rest with
        | .dot :: rest => (key? fuel rest).map fun (parts, rest) => (part :: parts, rest)
        | rest => some ([part], rest)

/-- The characters of the atoms and points that a token list starts with, and the rest. -/
def unquoted : List Token → List Char × List Token
  | .atom cs :: rest =>
    let (more, rest) := unquoted rest
    (cs ++ more, rest)
  | .dot :: rest =>
    let (more, rest) := unquoted rest
    ('.' :: more, rest)
  | ts => ([], ts)

def scalar? (cs : List Char) : Option Toml :=
  if cs = "true".toList then some (.boolean true)
  else if cs = "false".toList then some (.boolean false)
  else
    match integer? cs with
    | some n => some (.integer n)
    | none =>
      if isFloat cs then (if overflows cs then none else some .float)
      else if isDateTime cs then some .date
      else none

/-- An unquoted value. A date and a time may have one space between them. -/
def unquotedValue? (ts : List Token) : Option (Toml × List Token) :=
  let (cs, rest) := unquoted ts
  let joined :=
    match rest with
    | .space 1 :: .atom time :: more =>
      if isDate cs && (time.head?.map Char.isDigit).getD false then
        let (time, more) := unquoted (.atom time :: more)
        some (cs ++ ' ' :: time, more)
      else none
    | _ => none
  let (cs, rest) := joined.getD (cs, rest)
  (scalar? cs).map (·, rest)

def skipLines : List Token → List Token
  | .space _ :: rest => skipLines rest
  | .newline :: rest => skipLines rest
  | ts => ts

mutual

def value? : Nat → List Token → Option (Toml × List Token)
  | 0, _ => none
  | fuel + 1, ts =>
    match ts with
    | .quoted _ s :: rest => some (.string s, rest)
    | .lbracket :: rest => (items? fuel rest).map fun (items, rest) => (.array items, rest)
    | .lbrace :: rest =>
      match skipSpaces rest with
      | .rbrace :: rest => some (.table [], rest)
      | rest => (inline? fuel [] rest).map fun (entries, rest) => (.table (finishEntries entries), rest)
    | _ => unquotedValue? ts

/-- The items of an array after its bracket or a comma, and the tokens after the closing bracket. -/
def items? : Nat → List Token → Option (List Toml × List Token)
  | 0, _ => none
  | fuel + 1, ts =>
    match skipLines ts with
    | .rbracket :: rest => some ([], rest)
    | ts =>
      (value? fuel ts).bind fun (v, rest) =>
        match skipLines rest with
        | .comma :: rest => (items? fuel rest).map fun (items, rest) => (v :: items, rest)
        | .rbracket :: rest => some ([v], rest)
        | _ => none

/-- The entries of a table in braces, and the tokens after the closing brace. -/
def inline? : Nat → Entries → List Token → Option (Entries × List Token)
  | 0, _, _ => none
  | fuel + 1, es, ts =>
    (key? fuel ts).bind fun (key, rest) =>
      match rest with
      | .equals :: rest =>
        (value? fuel (skipSpaces rest)).bind fun (v, rest) =>
          (setKey v key es).bind fun es =>
            match skipSpaces rest with
            | .comma :: rest => inline? fuel es rest
            | .rbrace :: rest => some (es, rest)
            | _ => none
      | _ => none

end

def endOfLine? (ts : List Token) : Option (List Token) :=
  match skipSpaces ts with
  | [] => some []
  | .newline :: rest => some rest
  | _ => none

/-- The keys of a header, which may be that of an array of tables, and the tokens after it. -/
def header? (fuel : Nat) : List Token → Option (Bool × List String × List Token)
  | .lbracket :: .lbracket :: rest =>
    (key? fuel rest).bind fun (key, rest) =>
      match rest with
      | .rbracket :: .rbracket :: rest => some (true, key, rest)
      | _ => none
  | .lbracket :: rest =>
    (key? fuel rest).bind fun (key, rest) =>
      match rest with
      | .rbracket :: rest => some (false, key, rest)
      | _ => none
  | _ => none

def assignment? (fuel : Nat) (ts : List Token) : Option (List String × Toml × List Token) :=
  (key? fuel ts).bind fun (key, rest) =>
    match rest with
    | .equals :: rest => (value? fuel (skipSpaces rest)).map fun (v, rest) => (key, v, rest)
    | _ => none

def lines? (fuel : Nat) : Nat → List String → Entries → List Token → Option Entries
  | 0, _, es, _ => some es
  | count + 1, current, es, ts =>
    match skipLines ts with
    | [] => some es
    | .lbracket :: rest => do
      let (isElement, key, rest) ← header? fuel (.lbracket :: rest)
      let last ← key.getLast?
      let es ← changeAt (if isElement then openElement last else openTable last) key.dropLast es
      lines? fuel count key es (← endOfLine? rest)
    | ts => do
      let (key, v, rest) ← assignment? fuel ts
      let es ← changeAt (setKey v key) current es
      lines? fuel count current es (← endOfLine? rest)

/-- What a TOML text says, as the entries of its outermost table; no answer for what is no TOML. -/
def parse? (text : String) : Option (List (String × Toml)) := do
  let ts ← tokens? text
  let es ← lines? (2 * ts.length + 2) (ts.length + 1) [] [] ts
  return finishEntries es

end Toml

end RelQuery
