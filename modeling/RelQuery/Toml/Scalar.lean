import RelQuery.Toml.Token

/-!
# TOML scalars

What an unquoted value may be: a truth value, an integer, a floating-point number, or a date or time.
-/

namespace RelQuery.Toml

/-- Digits with single underscores between them, without the underscores. -/
def ungrouped? : List Char → Option (List Char)
  | [] => none
  | [c] => if c = '_' then none else some [c]
  | c :: '_' :: rest => if c = '_' then none else (ungrouped? rest).map (c :: ·)
  | c :: rest => if c = '_' then none else (ungrouped? rest).map (c :: ·)

def grouped? (base : Nat) (cs : List Char) : Option Nat :=
  (ungrouped? cs).bind (natOfDigits? base)

/-- The number that grouped decimal digits spell, without leading zeros. -/
def decimal? (cs : List Char) : Option Nat :=
  match cs with
  | '0' :: _ :: _ => none
  | _ => grouped? 10 cs

def signed : List Char → Bool × List Char
  | '+' :: rest => (false, rest)
  | '-' :: rest => (true, rest)
  | cs => (false, cs)

/-- An integer of at most 128 bits. -/
def integer? (cs : List Char) : Option Int :=
  match cs with
  | '0' :: 'x' :: digits => (grouped? 16 digits).bind fun n => bounded n
  | '0' :: 'o' :: digits => (grouped? 8 digits).bind fun n => bounded n
  | '0' :: 'b' :: digits => (grouped? 2 digits).bind fun n => bounded n
  | _ =>
    let (negative, digits) := signed cs
    (decimal? digits).bind fun n => bounded (if negative then -n else n)
where
  /-- The number, if it fits. -/
  bounded (n : Int) : Option Int :=
    if -(Nat.pow 2 127 : Nat) ≤ n && n < (Nat.pow 2 128 : Nat) then some n else none

def isExponent (cs : List Char) : Bool :=
  (grouped? 10 (signed cs).2).isSome

/-- Whether the characters spell a fraction after its point, with or without an exponent. -/
def isFraction (cs : List Char) : Bool :=
  let digits := cs.takeWhile fun c => c != 'e' && c != 'E'
  (grouped? 10 digits).isSome &&
    match cs.drop digits.length with
    | [] => true
    | _ :: exponent => isExponent exponent

def isFloat (cs : List Char) : Bool :=
  let body := (signed cs).2
  let whole := body.takeWhile fun c => c != '.' && c != 'e' && c != 'E'
  body == "inf".toList || body == "nan".toList ||
    ((decimal? whole).isSome &&
      match body.drop whole.length with
      | '.' :: fraction => isFraction fraction
      | _ :: exponent => isExponent exponent
      | [] => false)

/-- From here on numbers round to infinity: half a unit above the greatest of 64 bits. -/
def infinityBound : Nat := Nat.pow 2 1024 - Nat.pow 2 970

def isTooLarge (coefficient : Nat) (exponent : Int) : Bool :=
  -- far from the bound, the number of digits decides
  let magnitude : Int := (Nat.toDigits 10 coefficient).length + exponent
  if coefficient = 0 || magnitude < 300 then false
  else if 320 < magnitude then true
  else if 0 ≤ exponent then infinityBound ≤ coefficient * Nat.pow 10 exponent.toNat
  else infinityBound * Nat.pow 10 (-exponent).toNat ≤ coefficient

/-- Whether the characters, which spell a floating-point number, spell one that rounds to infinity. -/
def overflows (cs : List Char) : Bool :=
  let body := (signed cs).2.filter (· != '_')
  let mantissa := body.takeWhile fun c => c != 'e' && c != 'E'
  let places := (mantissa.dropWhile (· != '.')).length - 1
  let (negative, digits) := signed (body.drop (mantissa.length + 1))
  match natOfDigits? 10 (mantissa.filter (· != '.')), natOfDigits? 10 digits with
  | some coefficient, some n => isTooLarge coefficient ((if negative then -(n : Int) else n) - places)
  | _, _ => false

def daysIn (year month : Nat) : Nat :=
  if month = 2 then (if year % 4 = 0 && (year % 100 != 0 || year % 400 = 0) then 29 else 28)
  else if month = 4 || month = 6 || month = 9 || month = 11 then 30
  else 31

def afterDate? : List Char → Option (List Char)
  | a :: b :: c :: d :: '-' :: e :: f :: '-' :: g :: h :: rest =>
    match natOfDigits? 10 [a, b, c, d], natOfDigits? 10 [e, f], natOfDigits? 10 [g, h] with
    | some year, some month, some day =>
      if 1 ≤ month && month ≤ 12 && 1 ≤ day && day ≤ daysIn year month then some rest else none
    | _, _, _ => none
  | _ => none

def afterMinutes? : List Char → Option (List Char)
  | a :: b :: ':' :: c :: d :: rest =>
    match natOfDigits? 10 [a, b], natOfDigits? 10 [c, d] with
    | some hour, some minute => if hour ≤ 23 && minute ≤ 59 then some rest else none
    | _, _ => none
  | _ => none

def afterTime? (cs : List Char) : Option (List Char) :=
  match afterMinutes? cs with
  | some (':' :: a :: b :: rest) =>
    match natOfDigits? 10 [a, b] with
    | some second =>
      if 60 < second then none
      else
        match rest with
        | '.' :: fraction =>
          if (fraction.takeWhile Char.isDigit).isEmpty then none else some (fraction.dropWhile Char.isDigit)
        | _ => some rest
    | none => none
  | _ => none

def isOffset : List Char → Bool
  | [] => true
  | ['Z'] | ['z'] => true
  | '+' :: rest | '-' :: rest => afterMinutes? rest == some []
  | _ => false

def isDate (cs : List Char) : Bool := afterDate? cs == some []

def isDateTime (cs : List Char) : Bool :=
  match afterDate? cs with
  | some [] => true
  | some (c :: rest) =>
    (c = 'T' || c = 't' || c = ' ') &&
      match afterTime? rest with
      | some offset => isOffset offset
      | none => false
  | none => afterTime? cs == some []

end RelQuery.Toml
