import RelQuery.Alias.Plan
import RelQuery.Sql.Syntax

/-!
# Join clauses

The joins that lead from one end of a relation to the other: one, or two when the relation goes through a linking
table.
-/

namespace RelQuery

open Sql

def leftJoin (table label : String) (left right : Expr) : Join :=
  ⟨.aliased table label, .binary .eq left right⟩

/-- The joins along a relation, from the table `source` to the table `target`, by way of `through`. -/
def Relation.joins (r : Relation) (s : Schema) (source target through : String) : List Join :=
  let owner := s.entity r.owner
  let far := s.entity r.target
  match r.link with
  | .foreignKey key =>
    [leftJoin far.table target (.col source (owner.dbName key)) (.col target far.pkColumn.dbName)]
  | .reverseForeignKey key =>
    [leftJoin far.table target (.col source owner.pkColumn.dbName) (.col target (far.dbName key))]
  | .manyToMany throughId ownerKey targetKey =>
    let middle := s.entity throughId
    [leftJoin middle.table through (.col source owner.pkColumn.dbName) (.col through (middle.dbName ownerKey)),
     leftJoin far.table target (.col through (middle.dbName targetKey)) (.col target far.pkColumn.dbName)]

def ResolvedPath.joins (p : ResolvedPath) (s : Schema) (aliases : AliasPlan) (rootTable : String) :
    Except QueryError (List Join) := do
  let source ← aliases.qualifier (p.path.parent?.getD .root) rootTable
  let target ← aliases.qualifier p.path rootTable
  let through := ((aliases.get? p.path).bind (·.through)).map (·.text)
  return (s.relation (p.lastHop?.getD default)).joins s source target (through.getD target)

end RelQuery
