import RelQuery.Instance
import RelQuery.Lookup

/-!
# Filters

Conditions on the instances of a root entity: lookups with the values they are compared with, combined by conjunction,
disjunction and negation.
-/

namespace RelQuery

/-- A value that a lookup is compared with. -/
inductive ValueRef where
  | scalar (v : Value)
  | primaryKey (v : Value)
  /-- An instance stands for its primary key. -/
  | object (i : Instance)
  /-- The fields of an instance stand for the primary key among them. -/
  | payload (fields : List (String × Value))
  | list (items : List ValueRef)

inductive Filter where
  | lookup (lookup : String) (value : ValueRef)
  | and (items : List Filter)
  | or (items : List Filter)
  | not (item : Filter)

/-- The character that takes away the special meaning of the next one in a pattern. -/
def likeEscape : Char := '\\'

def isPatternChar (c : Char) : Bool :=
  c = likeEscape || c = '%' || c = '_'

def escapeLikeChars (cs : List Char) : List Char :=
  cs.flatMap fun c => if isPatternChar c then [likeEscape, c] else [c]

def escapeLike (raw : String) : String :=
  String.ofList (escapeLikeChars raw.toList)

def Operator.pattern (op : Operator) (raw : String) : String :=
  let escaped := escapeLikeChars raw.toList
  String.ofList <|
    match op with
    | .contains | .icontains => '%' :: escaped ++ ['%']
    | .startswith | .istartswith => escaped ++ ['%']
    | _ => '%' :: escaped

end RelQuery
