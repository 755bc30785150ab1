import RelQuery.Decimal.Shortest

/-!
# Scalar values

The values that flow through rows, parameters and instances. A floating-point number is kept as its bits, so two
values are equal exactly when they are the same value: a `NaN` equals itself, and the two zeros differ.
-/

namespace RelQuery

inductive Value where
  | null
  | bool (b : Bool)
  | int (n : Int64)
  | float (bits : UInt64)
  | text (s : String)
  deriving DecidableEq, Inhabited

namespace Value

def isNull : Value → Bool
  | null => true
  | _ => false

def asInt? : Value → Option Int64
  | int n => some n
  | _ => none

def asText? : Value → Option String
  | text s => some s
  | _ => none

/-- The truth value that the value is or, for the integers 0 and 1, stands for. -/
def asBool? : Value → Option Bool
  | bool b => some b
  | int n => if n = 0 then some false else if n = 1 then some true else none
  | _ => none

def display : Value → String
  | null => "NULL"
  | bool true => "true"
  | bool false => "false"
  | int n => toString n.toInt
  | float bits => Decimal.text bits
  | text s => s

@[simp] theorem isNull_eq_true {v : Value} : v.isNull = true ↔ v = null := by
  cases v <;> simp [isNull]

end Value

end RelQuery
