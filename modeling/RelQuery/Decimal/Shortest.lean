/-!
# Shortest decimal text

The decimal text of a binary64 number that has the fewest digits among those that read back as the same number, the
nearest of them, and of two equally near the larger. The text never uses an exponent.

Everything is exact arithmetic on natural numbers: a finite positive number is `m · 2 ^ q`, and the reals that round
to it form an interval around it whose ends belong to it when `m` is even.
-/

namespace RelQuery.Decimal

inductive Binary64 where
  | nan
  | infinite (negative : Bool)
  | zero (negative : Bool)
  | finite (negative : Bool) (exponent fraction : Nat)
  deriving DecidableEq

def Binary64.ofBits (bits : UInt64) : Binary64 :=
  let n := bits.toNat
  let negative := n / Nat.pow 2 63 == 1
  let exponent := n / Nat.pow 2 52 % Nat.pow 2 11
  let fraction := n % Nat.pow 2 52
  if exponent = 2047 then (if fraction = 0 then .infinite negative else .nan)
  else if exponent = 0 && fraction = 0 then .zero negative
  else .finite negative exponent fraction

/-- A positive number with the ends of its rounding interval, all three as multiples of `1 / scale`. -/
structure Rounding where
  value : Nat
  low : Nat
  high : Nat
  scale : Nat
  closed : Bool

/-- The interval of the number with the given biased exponent and fraction. The gap below a power of two is half as
wide as the gap above it, except at the bottom of the range. -/
def Rounding.ofParts (exponent fraction : Nat) : Rounding :=
  let m := if exponent = 0 then fraction else fraction + Nat.pow 2 52
  let e := if exponent = 0 then 1 else exponent
  let below := if fraction = 0 && 1 < exponent then 1 else 2
  -- the number is m · 2 ^ (e - 1075); a quarter of its last place is the unit
  let num := Nat.pow 2 (e - 1077)
  let scale := Nat.pow 2 (1077 - e)
  { value := 4 * m * num, low := (4 * m - below) * num, high := (4 * m + 2) * num, scale, closed := m % 2 == 0 }

def Rounding.contains (r : Rounding) (n : Nat) : Bool :=
  if r.closed then decide (r.low ≤ n) && decide (n ≤ r.high) else decide (r.low < n) && decide (n < r.high)

/-- A decimal `digits · 10 ^ exponent`. -/
structure Digits where
  digits : Nat
  exponent : Int
  deriving DecidableEq

/-- The point of the grid of multiples of `10 ^ p` that the interval holds and that is nearest to the value. -/
def Rounding.onGrid (r : Rounding) (p : Int) : Option Digits :=
  -- everything is brought to the unit 1 / (scale · 10 ^ max 0 (-p))
  let up := Nat.pow 10 p.toNat
  let down := Nat.pow 10 (-p).toNat
  let s : Rounding :=
    { r with value := r.value * down, low := r.low * down, high := r.high * down, scale := r.scale * down }
  let step := r.scale * up
  let below := s.value / step
  let above := below + 1
  let nearAbove := decide (above * step - s.value ≤ s.value - below * step)
  match s.contains (below * step), s.contains (above * step) with
  | true, true => some ⟨if nearAbove then above else below, p⟩
  | true, false => some ⟨below, p⟩
  | false, true => some ⟨above, p⟩
  | false, false => none

/-- The coarsest grid that hits the interval, from `10 ^ p` down to `10 ^ (p - count)`. -/
def Rounding.coarsest (r : Rounding) : Nat → Int → Digits
  | 0, p => ⟨0, p⟩
  | count + 1, p =>
    match r.onGrid p with
    | some d => d
    | none => r.coarsest count (p - 1)

def shortest (exponent fraction : Nat) : Digits :=
  (Rounding.ofParts exponent fraction).coarsest 640 309

def digitChars (n : Nat) : List Char :=
  Nat.toDigits 10 n

/-- The digits with the point where the exponent puts it, and a zero before a leading point. -/
def Digits.chars (d : Digits) : List Char :=
  let ds := digitChars d.digits
  if 0 ≤ d.exponent then ds ++ List.replicate d.exponent.toNat '0'
  else
    let places := (-d.exponent).toNat
    if ds.length ≤ places then '0' :: '.' :: (List.replicate (places - ds.length) '0' ++ ds)
    else ds.take (ds.length - places) ++ '.' :: ds.drop (ds.length - places)

/-- The text of the number with the given bits. A negative zero keeps its sign, a `NaN` has none. -/
def text (bits : UInt64) : String :=
  let signed (negative : Bool) (cs : List Char) := String.ofList (if negative then '-' :: cs else cs)
  match Binary64.ofBits bits with
  | .nan => "NaN"
  | .infinite negative => signed negative ['i', 'n', 'f']
  | .zero negative => signed negative ['0']
  | .finite negative exponent fraction => signed negative (shortest exponent fraction).chars

def isFinite (bits : UInt64) : Bool :=
  match Binary64.ofBits bits with
  | .nan | .infinite _ => false
  | _ => true

end RelQuery.Decimal
