import RelQuery.NameMap
import RelQuery.Value

/-!
# Documents

Data in the shape that instances are handed out in: scalars, arrays, and objects with their entries in ascending order
of their names.
-/

namespace RelQuery

inductive Document where
  | null
  | bool (b : Bool)
  | int (n : Int64)
  | float (bits : UInt64)
  | text (s : String)
  | array (items : List Document)
  | object (entries : List (String × Document))
  deriving Inhabited

/-- A scalar as a document. A number that is not finite has no form of its own and becomes the null. -/
def Value.toDocument : Value → Document
  | .null => .null
  | .bool b => .bool b
  | .int n => .int n
  | .float bits => if Decimal.isFinite bits then .float bits else .null
  | .text s => .text s

end RelQuery
