import RelQuery.Path

/-!
# Lookups and orderings

A lookup names a field at the end of a chain of relations and, after it, the operator that compares the field. An
ordering names a field in the same way and a direction.
-/

namespace RelQuery

inductive Operator where
  | exact | iexact
  | contains | icontains
  | startswith | istartswith
  | endswith | iendswith
  | isnull | isIn
  | gt | gte | lt | lte
  deriving DecidableEq

namespace Operator

def all : List Operator :=
  [exact, iexact, contains, icontains, startswith, istartswith, endswith, iendswith, isnull, isIn, gt, gte, lt, lte]

def name : Operator → String
  | exact => "exact"
  | iexact => "iexact"
  | contains => "contains"
  | icontains => "icontains"
  | startswith => "startswith"
  | istartswith => "istartswith"
  | endswith => "endswith"
  | iendswith => "iendswith"
  | isnull => "isnull"
  | isIn => "in"
  | gt => "gt"
  | gte => "gte"
  | lt => "lt"
  | lte => "lte"

def parse? (raw : String) : Option Operator :=
  all.find? (·.name == raw)

def isLike : Operator → Bool
  | contains | icontains | startswith | istartswith | endswith | iendswith => true
  | _ => false

def isCaseInsensitive : Operator → Bool
  | iexact | icontains | istartswith | iendswith => true
  | _ => false

theorem parse?_name (op : Operator) : parse? op.name = some op := by
  cases op <;> decide

end Operator

/-- A lookup as written, the segments that name its field, and its operator. -/
structure Lookup where
  raw : String
  parts : List String
  operator : Operator
  deriving DecidableEq

/-- Reads a lookup. The last segment is the operator if it spells one and is not the only segment. -/
def Lookup.parse (raw : String) : Lookup :=
  let parts := segmentsOf raw
  match parts.getLast?.bind Operator.parse? with
  | some op => if 1 < parts.length then ⟨raw, parts.dropLast, op⟩ else ⟨raw, parts, .exact⟩
  | none => ⟨raw, parts, .exact⟩

/-- The segments that name the field to order by, and the direction. -/
structure OrderSpec where
  parts : List String
  descending : Bool
  deriving DecidableEq

namespace OrderSpec

def ascending (raw : String) : OrderSpec := ⟨segmentsOf raw, false⟩

def descendingBy (raw : String) : OrderSpec := ⟨segmentsOf raw, true⟩

/-- Reads an ordering: a leading minus sign makes it descending. -/
def parse (raw : String) : OrderSpec :=
  match raw.toList with
  | '-' :: rest => descendingBy (String.ofList rest)
  | _ => ascending raw

def text (o : OrderSpec) : String :=
  (if o.descending then "-" else "") ++ joinSegments o.parts

def path (o : OrderSpec) : Path := ⟨o.parts⟩

end OrderSpec

end RelQuery
